/-
  Like terms are merged
  =====================
  Simplifying a sum merges its terms one after the other. No two of them are like each
  other afterwards, if the sum is *orderly* (`Node.Orderly`): its terms, each simplified
  by itself, can be merged (`Node.Mergeable`), and another pass would leave those alone
  that are like one behind them. What happens in the loop need not be known for this. All
  tame sums are orderly (`Node.Tame.orderly`), and so are sums of terms that are steady
  and can be merged (`Node.Orderly.of_steady`).

  Hence the sums that simplifying, adding, multiplying and expanding end in hold no like
  terms: **`Node.simplify_unlike`**. A sum of halves that add up to a sum in brackets is
  not orderly, and the terms that are spliced in from it stand beside like ones
  (`Node.not_simplify_unlike_halves`).
-/
import SymbolicAlgebra.Proofs.Algebra.Overflow
import SymbolicAlgebra.Proofs.CarryOver.Arithmetic
import SymbolicAlgebra.Proofs.Steady.Idempotence
import SymbolicAlgebra.Proofs.Termination.Simplify

namespace SymbolicAlgebra

variable {α : Type} [FieldScalar α]

/-- Neither of two terms is like the other. -/
def Term.Unlike (t u : Term α (Node α)) : Prop := t.isLike u = false ∧ u.isLike t = false

namespace Node

variable {ts us : List (Term α (Node α))}

/-- The terms of a sum can be merged as they are when each is simplified by itself, and another pass
would leave those alone that are like one behind them. -/
def Orderly (ts : List (Term α (Node α))) : Prop :=
  ∀ us, List.Forall₂ (fun t u => (Node.product t).simplify = .ok (.product u)) ts us →
    Mergeable us ∧ Settled us

/-! ### Terms simplified by themselves -/

/-- Under enough levels and down to enough depth, a term of a sum is simplified as it is by itself. -/
theorem pass_of_simplify (filled : (Node.sum ts).Filled) {t u : Term α (Node α)} (member : t ∈ ts)
    (simplified : (Node.product t).simplify = .ok (.product u)) {level depth : Nat}
    (above : (Node.sum ts).level ≤ level) (below : (Node.sum ts).depth ≤ depth + 1) :
    t.pass level depth = .ok u := by
  have levels := level_le_termsLevel member
  have depths := depth_le_termsDepth member
  rw [Node.level] at above
  rw [Node.depth] at below
  have nested : (Node.product t).Nested level (depth + 1) :=
    ⟨by omega, by omega, Hereditary.terms filled t member⟩
  rw [← Calls.simplifyAt_eq nested le_rfl, Term.simplifyAt_product] at simplified
  obtain ⟨w, passed, same⟩ := bind_eq_ok.1 simplified
  cases same
  exact passed

variable [ExactScalar α]

/-- Over exact numbers every term is simplified to one. -/
theorem product_simplifies (t : Term α (Node α)) :
    ∃ u, (Node.product t).simplify = .ok (.product u) := by
  obtain ⟨lower, deep⟩ : ∃ lower, (Node.product t).depth = lower + 1 := by
    rw [Node.depth]
    exact ⟨_, Nat.add_comm _ _⟩
  obtain ⟨n, simplified⟩ := (fails_simplify (Node.product t)).exists
  have unfolded := simplified
  rw [simplify, deep, Term.simplifyAt_product] at unfolded
  obtain ⟨u, -, same⟩ := bind_eq_ok.1 unfolded
  cases same
  exact ⟨u, simplified⟩

theorem terms_simplify (ts : List (Term α (Node α))) :
    ∃ us, List.Forall₂ (fun t u => (Node.product t).simplify = .ok (.product u)) ts us := by
  induction ts with
  | nil => exact ⟨[], .nil⟩
  | cons t ts ih =>
    obtain ⟨u, first⟩ := product_simplifies t
    obtain ⟨us, later⟩ := ih
    exact ⟨u :: us, .cons first later⟩

variable [SteadyScalar α]

/-! ### Orderly sums -/

/-- A tame term is simplified to zero or to a steady term. -/
theorem Tame.product_done {t : Term α (Node α)} (tame : (Node.product t).Tame) :
    ∃ u, (u = Term.zero ∨ u.Steady) ∧ (Node.product t).simplify = .ok (.product u) := by
  obtain ⟨u, done, passed⟩ := tame.settles.2 t rfl
  obtain ⟨r, settles⟩ := product_settles done passed
  exact ⟨u, done, settles.simplify_eq⟩

/-- Tame sums are orderly. -/
theorem Tame.orderly (tame : (Node.sum ts).Tame) : Orderly ts := by
  cases tame with
  | sum _ terms mergeable =>
    intro us simplified
    have related := (List.forall₂_and_left ts us).2 ⟨fun t ht => (terms t ht).product_done, simplified⟩
    have done : List.Forall₂ (fun u t => (u = Term.zero ∨ u.Steady) ∧ True) us ts := by
      refine List.Forall₂.flip (related.imp ?_)
      rintro t u ⟨⟨w, finished, once⟩, again⟩
      rw [once] at again
      cases again
      exact ⟨finished, trivial⟩
    exact ⟨mergeable us simplified, .of_done ((List.forall₂_and_left us ts).1 done).1⟩

/-- Steady terms that can be merged make an orderly sum. -/
theorem Orderly.of_steady (steady : ∀ t ∈ ts, t.Steady) (mergeable : Mergeable ts) : Orderly ts := by
  intro us simplified
  have same : List.Forall₂ (fun t u => t = u) ts us := by
    refine ((List.forall₂_and_left ts us).2 ⟨steady, simplified⟩).imp ?_
    rintro t u ⟨steady, simplified⟩
    obtain ⟨r, settles⟩ := product_settles (.inr steady) fun level depth _ _ =>
      steady.pass_eq level depth
    rw [settles.simplify_eq] at simplified
    cases simplified
    rfl
  rw [List.forall₂_eq_eq_eq] at same
  subst same
  exact ⟨mergeable, .of_done fun t ht => .inr (steady t ht)⟩

/-- One pass over an orderly sum leaves no like terms apart. -/
theorem Orderly.simplifySum_unlike (orderly : Orderly ts) (filled : (Node.sum ts).Filled) :
    ∃ us, us.Pairwise Term.Unlike ∧ ∀ level depth, (Node.sum ts).level ≤ level →
      (Node.sum ts).depth ≤ depth + 1 → simplifySum (Term.pass level depth) ts = .ok us := by
  obtain ⟨us, simplified⟩ := terms_simplify ts
  obtain ⟨mergeable, settled⟩ := orderly us simplified
  obtain ⟨ks, merged, -, pass⟩ := mergeable.simplifySum_eq settled
  refine ⟨flattenedTerms ks, ?_, ?_⟩
  · refine merged.flattened_unlike.imp fun {t u} unlike => ⟨unlike, ?_⟩
    rw [← Bool.not_eq_true] at unlike ⊢
    exact fun like => unlike (Term.isLike_symm like)
  · intro level depth above below
    apply pass level depth
    refine ((List.forall₂_and_left ts us).2 ⟨fun t ht => ht, simplified⟩).imp ?_
    exact fun t u ⟨member, once⟩ => pass_of_simplify filled member once above below

/-- Merging the terms of an orderly sum leaves no like terms apart. -/
theorem Orderly.simplifyTerms_unlike (orderly : Orderly ts) (filled : (Node.sum ts).Filled) :
    ∃ us, simplifyTerms ts = .ok us ∧ us.Pairwise Term.Unlike := by
  obtain ⟨us, unlike, simplified⟩ := orderly.simplifySum_unlike filled
  exact ⟨us, simplified _ _ le_rfl (Nat.le_succ _), unlike⟩

/-- The sums that simplifying, adding, multiplying and expanding a sum end in hold no like terms, when
the terms that they merge are orderly. All tame sums are. -/
theorem simplify_unlike (filled : (Node.sum ts).Filled) :
    (∀ us : List (Term α (Node α)), (Node.sum us).Tame → Orderly us) ∧
    (Orderly ts → ∃ us, (Node.sum ts).simplify = .ok (.sum us) ∧ us.Pairwise Term.Unlike) ∧
    (∀ n : Node α, n.Filled → Orderly (flattenedTerms (ts ++ n.addends)) →
      ∃ us, (Node.sum ts).add n = .ok (.sum us) ∧ us.Pairwise Term.Unlike) ∧
    (∀ vs, (Node.sum vs).Filled → Orderly (flattenedTerms (crossTerms ts vs)) →
      ∃ us, (Node.sum ts).multiply (.sum vs) = .ok (.sum us) ∧ us.Pairwise Term.Unlike) ∧
    ∃ ns, expandTerms ts = .ok ns ∧ (Orderly (flattened ns) →
      ∃ us, (Node.sum ts).expand = .ok (.sum us) ∧ us.Pairwise Term.Unlike) := by
  have terms : ∀ {us : List (Term α (Node α))}, (Node.sum us).Filled →
      ∀ t ∈ us, (Node.product t).Filled := Hereditary.terms
  refine ⟨fun us => Tame.orderly, ?_, ?_, ?_, ?_⟩
  · intro orderly
    obtain ⟨us, unlike, simplified⟩ := orderly.simplifySum_unlike filled
    refine ⟨us, ?_, unlike⟩
    rw [simplify, depth, Nat.add_comm, Term.simplifyAt_sum,
      simplified _ (termsDepth ts) le_rfl (by rw [depth, Nat.add_comm])]
    rfl
  · intro n whole orderly
    have addends : ∀ t ∈ n.addends, (Node.product t).Filled := by
      unfold Node.addends
      split
      · exact terms whole
      · exact List.forall_mem_singleton.2
          (Term.carry_wrap (Q := fun _ => Filled) (p := .alone) (q := .alone) whole)
    obtain ⟨us, merged, unlike⟩ := orderly.simplifyTerms_unlike
      (carry_flattenedTerms (Q := fun _ => Filled) (p := .alone) (q := .alone)
        (List.forall_mem_append.2 ⟨terms filled, addends⟩))
    refine ⟨us, ?_, unlike⟩
    rw [add, addWith, merged]
    rfl
  · intro vs whole orderly
    obtain ⟨us, merged, unlike⟩ := orderly.simplifyTerms_unlike
      (carry_flattenedTerms (Q := fun _ => Filled) (p := .alone) (q := .alone)
        (carry_crossTerms (Q := fun _ => Filled) (p := .alone) (terms filled) (terms whole)))
    refine ⟨us, ?_, unlike⟩
    rw [multiply, merged]
    rfl
  · obtain ⟨ns, expanded⟩ := (FailsByScaling.mapM (fun t => fails_expand (Node.product t)) ts).exists
    have parts : ∀ n ∈ ns, n.Filled := by
      refine Yields.mapM (fun t ht => ?_) ns expanded
      exact carry_expand (Q := fun _ => Filled) (p := .alone) (terms filled t ht)
    rw [← expandTerms_eq] at expanded
    refine ⟨ns, expanded, fun orderly => ?_⟩
    obtain ⟨us, merged, unlike⟩ := orderly.simplifyTerms_unlike
      (carry_flattened (Q := fun _ => Filled) (p := .alone) (q := .alone) parts)
    refine ⟨us, ?_, unlike⟩
    rw [expand, expanded]
    exact congrArg (· >>= fun us => pure (Node.sum us)) merged

/-- The sum `2x + 3x + y + 3 + 5` is simplified, added to `z`, multiplied by a sum of 3 alone, and
expanded. -/
theorem simplify_unlike_letters :
    let letter : Char → Node ℚ := fun c => .var ⟨c, 0⟩ false
    let times : ℚ × Char → Term ℚ (Node ℚ) := fun k =>
      ⟨k.1, 1, [⟨letter k.2, .number 1⟩], [Factor.empty]⟩
    let number : ℚ → Term ℚ (Node ℚ) := fun k => ⟨k, 1, [Factor.empty], [Factor.empty]⟩
    let ts := [(2, 'x'), (3, 'x'), (1, 'y')].map times ++ [3, 5].map number
    ((Node.sum ts).Filled ∧ (Node.sum ts).Tame) ∧
      (∃ us, (Node.sum ts).simplify = .ok (.sum us) ∧ us.Pairwise Term.Unlike) ∧
      (∃ us, (Node.sum ts).add (letter 'z') = .ok (.sum us) ∧ us.Pairwise Term.Unlike) ∧
      (∃ us, (Node.sum ts).multiply (.sum [number 3]) = .ok (.sum us) ∧ us.Pairwise Term.Unlike) ∧
      ∃ us, (Node.sum ts).expand = .ok (.sum us) ∧ us.Pairwise Term.Unlike := by
  intro letter times number ts
  have letters : ∀ k : ℚ × Char, Scalar.reduceFraction k.1 1 = .ok (k.1, 1) →
      (times k).isZero = false → (times k).Steady ∧ (times k).isSolid = true := by
    intro k fraction nonzero
    have steady : ∀ f ∈ ([⟨letter k.2, .number 1⟩] ++ [] : List (Factor (Node ℚ))), f.Steady :=
      List.forall_mem_singleton.2 (Factor.steady_var _ ExactScalar.one_lt_zero one_ne_zero)
    obtain ⟨above, below⟩ := Term.normal_real steady k.1 1
    have built : Term.normal k.1 1 [⟨letter k.2, .number 1⟩] [] = times k :=
      Term.normal_positive steady ExactScalar.one_lt_zero
    rw [← built] at nonzero ⊢
    refine ⟨Term.steady_normal steady (List.pairwise_singleton _ _) ExactScalar.one_lt_zero nonzero
      fraction, ?_⟩
    rw [Term.isSolid, above, below]
  have numbers : ∀ k : ℚ, Scalar.reduceFraction k 1 = .ok (k, 1) →
      (number k).isZero = false → (number k).Steady ∧ (number k).Bare := by
    intro k fraction nonzero
    have steady : ∀ f ∈ ([] ++ [] : List (Factor (Node ℚ))), f.Steady := List.forall_mem_nil _
    obtain ⟨above, below⟩ := Term.normal_real steady k 1
    have built : Term.normal k 1 [] [] = number k :=
      Term.normal_positive steady ExactScalar.one_lt_zero
    rw [← built] at nonzero ⊢
    exact ⟨Term.steady_normal steady .nil ExactScalar.one_lt_zero nonzero fraction, above, below⟩
  have orderly : ∀ (ks : List (ℚ × Char)) (ls : List ℚ),
      (∀ k ∈ ks, Scalar.reduceFraction k.1 1 = .ok (k.1, 1) ∧ (times k).isZero = false) →
      (∀ k ∈ ls, Scalar.reduceFraction k 1 = .ok (k, 1) ∧ (number k).isZero = false) →
        Orderly (ks.map times ++ ls.map number) := by
    intro ks ls above below
    have upper : ∀ t ∈ ks.map times, t.Steady ∧ t.isSolid = true :=
      List.forall_mem_map.2 fun k hk => letters k (above k hk).1 (above k hk).2
    have lower : ∀ t ∈ ls.map number, t.Steady ∧ t.Bare :=
      List.forall_mem_map.2 fun k hk => numbers k (below k hk).1 (below k hk).2
    refine .of_steady (List.forall_mem_append.2 ⟨?_, ?_⟩) (.of_last ?_ ?_)
    · exact fun t ht => (upper t ht).1
    · exact fun t ht => (lower t ht).1
    · exact fun t ht => (upper t ht).2
    · exact fun t ht => (lower t ht).2
  have upper : ∀ k, (times k).realFactors ++ (times k).realDivisors = [⟨letter k.2, .number 1⟩] :=
    fun k => by with_unfolding_all rfl
  have lower : ∀ k, (number k).realFactors ++ (number k).realDivisors = [] :=
    fun k => by with_unfolding_all rfl
  have tame : (Node.sum ts).Tame := by
    refine .sum ts (List.forall_mem_append.2 ⟨List.forall_mem_map.2 fun k _ => .of_variables ?_,
      List.forall_mem_map.2 fun k _ => .of_variables ?_⟩) ?_
    · rw [upper]
      exact List.forall_mem_singleton.2 ⟨_, _, rfl⟩
    · rw [lower]
      exact List.forall_mem_nil _
    · intro us simplified
      exact (orderly _ _ (by decide +kernel) (by decide +kernel) us simplified).1
  have filled : ∀ (ks : List (ℚ × Char)) (ls : List ℚ), ks.map times ++ ls.map number ≠ [] →
      (Node.sum (ks.map times ++ ls.map number)).Filled := by
    intro ks ls some
    refine Hereditary.sum some (List.forall_mem_append.2
      ⟨List.forall_mem_map.2 fun k _ => meets_product.2 ⟨trivial, ?_⟩,
        List.forall_mem_map.2 fun k _ => meets_product.2 ⟨trivial, ?_⟩⟩)
    · rw [Term.realParts, upper]
      exact List.forall_mem_singleton.2 ⟨.var _ _, .number _ trivial⟩
    · rw [Term.realParts, lower]
      exact List.forall_mem_nil _
  have sum : flattenedTerms (ts ++ (letter 'z').addends) =
      [(2, 'x'), (3, 'x'), (1, 'y'), (1, 'z')].map times ++ [3, 5].map number := by
    dsimp only [ts, times, number, letter, List.map]
    with_unfolding_all rfl
  have product : flattenedTerms (crossTerms ts [number 3]) =
      [(6, 'x'), (9, 'x'), (3, 'y')].map times ++ [9, 15].map number := by
    dsimp only [ts, times, number, letter, List.map]
    with_unfolding_all rfl
  have parts : expandTerms ts = .ok (ts.map .product) := by
    dsimp only [ts, times, number, letter, List.map]
    with_unfolding_all rfl
  have kept : flattened (ts.map .product) = ts := by
    dsimp only [ts, times, number, letter, List.map]
    with_unfolding_all rfl
  have whole : (Node.sum ts).Filled := filled _ _ (by simp)
  obtain ⟨ordered, simplified, added, multiplied, ns, expanded, merged⟩ := simplify_unlike whole
  cases parts.symm.trans expanded
  refine ⟨⟨whole, tame⟩, simplified (ordered ts tame), added _ (.var _ _) ?_,
    multiplied [number 3] (filled [] [3] (by simp)) ?_, merged ?_⟩
  · rw [sum]
    exact orderly _ _ (by decide +kernel) (by decide +kernel)
  · rw [product]
    exact orderly _ _ (by decide +kernel) (by decide +kernel)
  · rw [kept]
    exact ordered ts tame

/-- Two halves of `x + y` and `x`: the sum of the halves is `x + y` itself, which is given up when
nothing is merged any more. -/
theorem not_simplify_unlike_halves :
    let x : Node ℚ := .var ⟨'x', 0⟩ false
    let y : Node ℚ := .var ⟨'y', 0⟩ false
    let times : ℚ → Node ℚ → Term ℚ (Node ℚ) := fun c n => ⟨c, 1, [⟨n, .number 1⟩], [Factor.empty]⟩
    let half := times (1 / 2) (.sum [times 1 x, times 1 y])
    (Node.sum [half, half, times 1 x]).simplify = .ok (.sum [times 1 x, times 1 y, times 1 x]) ∧
      (times 1 x).isLike (times 1 x) = true := by
  refine ⟨?_, by decide +kernel⟩
  dsimp only
  with_unfolding_all rfl

end Node

end SymbolicAlgebra
