/-
  Simplifying comes to an end
  ===========================
  The calls that simplifying makes are not on parts of the tree: the exponents of equal
  bases are added, which puts them over a common denominator and simplifies a sum that
  may be larger than both, and merged terms are simplified once more.

  What does not grow is the level, the nesting of exponents that are no plain numbers, and
  within a level the depth of bases and arguments. A base is of the same level and less
  deep, an exponent is of a lower level, of whatever depth, and so is everything that
  exponents add up to. One lemma an operation says that if the calls on bases of a depth
  and on exponents of a level come to rest, the operation does, and that its result is
  within the level and the depth. Two inductions follow: down the depth
  (`Calls.rests_simplifyAt`) and up the levels (`Calls.answers_exponentRules`). The result
  is **`Calls.simplify_ends`**.
-/
import SymbolicAlgebra.Proofs.Algebra.Matching
import SymbolicAlgebra.Proofs.Algebra.Nesting
import SymbolicAlgebra.Proofs.Termination.Calls
import SymbolicAlgebra.Proofs.Value.Rational

namespace SymbolicAlgebra

open Node (Nested Exponent nested_grading exponent_number)

variable {α : Type} [Scalar α] {l k : Nat}

/-- A base of the level and the depth at most, with an exponent for such bases. -/
abbrev Factor.Nested (l k : Nat) (f : Factor (Node α)) : Prop :=
  f.Under (Node.Nested l) (fun _ => Exponent l) k

namespace Calls

/-- Added and tidied, exponents of the level stay exponents of the level, and the calls that do
this rest with what the rules say. -/
structure Answers (l : Nat) (rules : ExponentRules α) : Prop where
  add : ∀ {m n : Node α}, Exponent l m → Exponent l n →
    Rests (Exponent l) (fun calls => calls.rules.add m n) (rules.add m n)
  tidy : ∀ {e : Node α}, Exponent l e →
    Rests (Exponent l) (fun calls => calls.rules.tidy e) (rules.tidy e)

/-! ### Simplifying products -/

section Product

variable {rules : ExponentRules α} (closed : Answers l rules)
  {simplify : Node α → Checked (Node α)}
  (inner : ∀ {n : Node α}, n.Nested l k →
    Rests (Nested l k) (fun calls => calls.simplifyBase n) (simplify n))

include closed

theorem rests_collectOne {f : Factor (Node α)} (hf : f.Nested l k)
    {gs : List (Factor (Node α))} (hg : ∀ g ∈ gs, g.Nested l k) :
    Rests (∀ g ∈ ·, Factor.Nested l k g) (fun calls => Node.collectOne calls.rules f gs)
      (Node.collectOne rules f gs) := by
  induction gs with
  | nil => exact .ok (List.forall_mem_singleton.2 hf)
  | cons g gs ih =>
    obtain ⟨first, rest⟩ := List.forall_mem_cons.1 hg
    simp only [Node.collectOne]
    apply Rests.ite
    · intro _
      refine (closed.add first.exponent hf.exponent).bind fun sum hsum => ?_
      exact .ok (List.forall_mem_cons.2 ⟨⟨first.base, hsum⟩, rest⟩)
    · intro _
      refine (ih rest).bind fun grouped hgrouped => ?_
      exact .ok (List.forall_mem_cons.2 ⟨first, hgrouped⟩)

theorem rests_collect {fs : List (Factor (Node α))} (h : ∀ f ∈ fs, f.Nested l k) :
    Rests (∀ f ∈ ·, Factor.Nested l k f) (fun calls => Node.collect calls.rules fs)
      (Node.collect rules fs) :=
  .foldlM (fun f hf _ kept => rests_collectOne closed (h f hf) kept) (List.forall_mem_nil _)

theorem rests_tidyExponents {fs : List (Factor (Node α))} (h : ∀ f ∈ fs, f.Nested l k) :
    Rests (∀ f ∈ ·, Factor.Nested l k f) (fun calls => Node.tidyExponents calls.rules fs)
      (Node.tidyExponents rules fs) := by
  apply Rests.mapM
  intro f hf
  exact (closed.tidy (h f hf).exponent).bind fun e he => .ok ⟨(h f hf).base, he⟩

omit closed in
theorem nested_cancelOne {f : Factor (Node α)} (hf : f.Nested l k)
    {gs : List (Factor (Node α))} (hg : ∀ g ∈ gs, g.Nested l k) :
    (∀ h ∈ (Node.cancelOne f gs).1.toList, h.Nested l k) ∧
      ∀ g ∈ (Node.cancelOne f gs).2, g.Nested l k := by
  have numbered : ∀ {n : Node α} (x : α), n.Nested l k → Factor.Nested l k ⟨n, .number x⟩ :=
    fun x h => (nested_grading l).under_number h x
  induction gs with
  | nil => exact ⟨List.forall_mem_singleton.2 hf, hg⟩
  | cons g gs ih =>
    obtain ⟨first, rest⟩ := List.forall_mem_cons.1 hg
    rw [Node.cancelOne]
    split
    · split
      · split
        · exact ⟨List.forall_mem_singleton.2 (numbered _ hf.base), rest⟩
        · split
          · exact ⟨List.forall_mem_nil _,
              List.forall_mem_cons.2 ⟨numbered _ first.base, rest⟩⟩
          · exact ⟨List.forall_mem_nil _, rest⟩
      · exact ⟨List.forall_mem_singleton.2 hf, hg⟩
    · obtain ⟨kept, left⟩ := ih rest
      exact ⟨kept, List.forall_mem_cons.2 ⟨first, left⟩⟩

omit closed in
theorem nested_cancel {fs gs : List (Factor (Node α))} (hf : ∀ f ∈ fs, f.Nested l k)
    (hg : ∀ g ∈ gs, g.Nested l k) :
    (∀ f ∈ (Node.cancel fs gs).1, f.Nested l k) ∧ ∀ g ∈ (Node.cancel fs gs).2, g.Nested l k := by
  induction fs generalizing gs with
  | nil => exact ⟨hf, hg⟩
  | cons f fs ih =>
    obtain ⟨first, rest⟩ := List.forall_mem_cons.1 hf
    obtain ⟨kept, left⟩ := nested_cancelOne first hg
    obtain ⟨above, below⟩ := ih rest left
    rw [Node.cancel]
    exact ⟨List.forall_mem_append.2 ⟨kept, above⟩, below⟩

include inner

theorem rests_simplifyFactor {f : Factor (Node α)} (h : f.Nested l k) :
    Rests (Factor.Nested l k) (fun calls => Node.simplifyFactor calls.rules calls.simplifyBase f)
      (Node.simplifyFactor rules simplify f) := by
  refine (inner h.base).bind fun b hb => (closed.tidy h.exponent).bind fun e he => .still ?_
  have reduced : b.reduce.Nested l k := hb.reduce
  dsimp only
  split
  · exact .ok ((nested_grading l).under_empty k)
  · split
    · split
      · exact .ok ((nested_grading l).under_number ((nested_grading l).number k _) 1)
      · exact .ok ⟨reduced, he⟩
    · exact .ok ⟨reduced, he⟩

theorem rests_simplifyTerm {t : Term α (Node α)} (h : ∀ f ∈ t.realParts, f.Nested l k) :
    Rests (fun t => (Node.product t).Nested l (k + 1))
      (fun calls => Node.simplifyTerm calls.rules calls.simplifyBase t)
      (Node.simplifyTerm rules simplify t) := by
  have factors : ∀ {fs : List (Factor (Node α))}, (∀ f ∈ fs, f.Nested l k) →
      Rests (∀ f ∈ ·, Factor.Nested l k f)
        (fun calls => fs.mapM (Node.simplifyFactor calls.rules calls.simplifyBase))
        (fs.mapM (Node.simplifyFactor rules simplify)) := by
    intro fs each
    exact .mapM fun f hf => rests_simplifyFactor closed inner (each f hf)
  obtain ⟨upper, lower⟩ := Term.forall_realParts.1 h
  refine (factors upper).bind fun fs hf => (rests_collect closed hf).bind fun above ha => ?_
  refine (factors lower).bind fun gs hg => (rests_collect closed hg).bind fun below hb => ?_
  obtain ⟨kept, left⟩ := nested_cancel ha hb
  refine (rests_tidyExponents closed kept).bind fun top ht => ?_
  refine (rests_tidyExponents closed left).bind fun bottom hu => .still ?_
  have built := (nested_grading l).normal t.numerator t.denominator
    (List.forall_mem_append.2 ⟨ht, hu⟩)
  dsimp only
  split
  · exact .ok ((nested_grading l).zero k)
  · intro r result
    obtain ⟨⟨n, d⟩, -, rest⟩ := bind_eq_ok.1 result
    cases rest
    exact (nested_grading l).renormal built n d

end Product

/-! ### Simplifying sums -/

section Sum

variable {run : Calls α → Term α (Node α) → Checked (Term α (Node α))}
  {simplify : Term α (Node α) → Checked (Term α (Node α))}
  (stepped : ∀ {t : Term α (Node α)}, (Node.product t).Nested l (k + 1) →
    Rests (fun t => (Node.product t).Nested l (k + 1)) (fun calls => run calls t) (simplify t))

include stepped

/-- A merged term is simplified again; it has the factors of the terms that it is merged from. -/
theorem rests_mergeOne {t : Term α (Node α)} (ht : (Node.product t).Nested l (k + 1))
    {us : List (Term α (Node α))} (hu : ∀ u ∈ us, (Node.product u).Nested l (k + 1)) :
    Rests (∀ u ∈ ·, (Node.product u).Nested l (k + 1))
      (fun calls => Node.mergeOne (run calls) t us) (Node.mergeOne simplify t us) := by
  induction us with
  | nil => exact .ok (List.forall_mem_singleton.2 ht)
  | cons u us ih =>
    obtain ⟨first, rest⟩ := List.forall_mem_cons.1 hu
    have combined : Yields (fun t => (Node.product t).Nested l (k + 1)) (u.combine t) := by
      intro r result
      obtain ⟨⟨n, d⟩, -, built⟩ := bind_eq_ok.1 result
      cases built
      exact (nested_grading l).renormal first n d
    simp only [Node.mergeOne]
    apply Rests.ite
    · intro _
      refine (Rests.still combined).bind fun v hv => (stepped hv).bind fun w hw => ?_
      exact .ok (List.forall_mem_cons.2 ⟨hw, rest⟩)
    · intro _
      refine (ih rest).bind fun merged hm => ?_
      exact .ok (List.forall_mem_cons.2 ⟨first, hm⟩)

theorem rests_simplifySum {ts : List (Term α (Node α))}
    (h : ∀ t ∈ ts, (Node.product t).Nested l (k + 1)) :
    Rests (fun us => (Node.sum us).Nested l (k + 2))
      (fun calls => Node.simplifySum (run calls) ts) (Node.simplifySum simplify ts) := by
  have merged : Rests (∀ t ∈ ·, (Node.product t).Nested l (k + 1))
      (fun calls =>
        ts.foldlM (fun merged t => do Node.mergeOne (run calls) (← run calls t) merged) [])
      (ts.foldlM (fun merged t => do Node.mergeOne simplify (← simplify t) merged) []) := by
    refine .foldlM (fun t ht merged kept => ?_) (List.forall_mem_nil _)
    exact (stepped (h t ht)).bind fun u hu => rests_mergeOne stepped hu kept
  exact merged.bind fun us hu => .ok ((nested_grading l).flattenedTerms hu)

end Sum

/-! ### Down the depth -/

section Depth

variable {rules : ExponentRules α} (closed : Answers l rules)

/-- A sum within a level is two steps deeper than the bases of its terms. -/
theorem exists_depth {ts : List (Term α (Node α))} (h : (Node.sum ts).Nested l k) :
    ∃ j, k = j + 2 ∧ ∀ t ∈ ts, (Node.product t).Nested l (j + 1) := by
  obtain ⟨i, rfl, some, each⟩ := (nested_grading l).sum.1 h
  obtain ⟨t, ht⟩ := List.exists_mem_of_ne_nil ts some
  obtain ⟨j, rfl, -⟩ := (nested_grading l).real (each t ht)
  exact ⟨j, rfl, each⟩

/-- A base that is simplified is reduced, too. -/
theorem Rests.base {n : Node α} {result : Checked (Node α)}
    (h : Rests (Nested l k) (fun calls => calls.simplify n) result) :
    Rests (Nested l k) (fun calls => calls.simplifyBase n) result := by
  have both : Rests (Nested l k) (fun calls => calls.simplifyBase n) (result >>= .ok) := by
    refine h.bind fun s hs => ?_
    exact (rests_reduce ⟨Nat.le_refl _, hs.filled⟩).after (.ok hs)
  rwa [show result >>= .ok = result from bind_pure result] at both

include closed

theorem rests_simplifyAt {depth : Nat} {n : Node α} (h : n.Nested l k) (deep : k ≤ depth) :
    Rests (Nested l k) (fun calls => calls.simplify n) (Node.simplifyAt rules depth n) := by
  induction depth generalizing k n with
  | zero =>
    obtain rfl := Nat.le_zero.1 deep
    obtain ⟨x, rfl⟩ | ⟨c, negative, rfl⟩ | ⟨v, negative, rfl⟩ := (nested_grading l).leaf h
    · exact .step (.ok h)
    · exact .step (.ok h)
    · exact .step (.ok h)
  | succ depth ih =>
    apply Rests.step
    cases n with
    | number | constant | var => exact .ok h
    | power f =>
      obtain ⟨j, rfl, base, exponent⟩ := (nested_grading l).power.1 h
      have factor := rests_simplifyFactor closed (fun low => (ih low (by omega)).base)
        (Factor.Under.mk base exponent)
      refine factor.bind fun g hg => .ok ?_
      exact (nested_grading l).power.2 ⟨j, rfl, hg.base, hg.exponent⟩
    | product t =>
      obtain ⟨j, rfl, -⟩ := (nested_grading l).real h
      have term := rests_simplifyTerm closed (fun low => (ih low (by omega)).base)
        ((nested_grading l).parts h)
      exact term.bind fun u hu => .ok hu
    | sum ts =>
      obtain ⟨j, rfl, each⟩ := exists_depth h
      have sum := rests_simplifySum (fun term => rests_simplifyTerm closed
        (fun low => (ih low (by omega)).base) ((nested_grading l).parts term)) each
      exact sum.bind fun us hu => .ok hu
    | unary f x =>
      obtain ⟨j, rfl, argument⟩ := (nested_grading l).unary.1 h
      refine (ih argument (by omega)).bind fun y hy => .ok ?_
      exact (nested_grading l).unary.2 ⟨j, rfl, hy⟩
    | binary f x y =>
      obtain ⟨j, rfl, left, right⟩ := (nested_grading l).binary.1 h
      refine (ih left (by omega)).bind fun a ha => (ih right (by omega)).bind fun b hb => .ok ?_
      exact (nested_grading l).binary.2 ⟨j, rfl, ha, hb⟩

theorem rests_simplifySumWith {ts : List (Term α (Node α))} (h : (Node.sum ts).Nested l k) :
    Rests (fun us => (Node.sum us).Nested l k) (fun calls => calls.simplifyTerms ts)
      (Node.simplifySumWith rules ts) := by
  have own : (Node.sum ts).Nested l (Node.sum ts).depth := ⟨h.level, Nat.le_refl _, h.filled⟩
  obtain ⟨j, same, each⟩ := exists_depth own
  have bases : ∀ {n : Node α}, n.Nested l j → Rests (Nested l j) (fun calls => calls.simplifyBase n)
      (Node.simplifyAt rules (Node.sum ts).depth n) := by
    intro n low
    exact (rests_simplifyAt closed low (by omega)).base
  have sum := rests_simplifySum
    (fun term => rests_simplifyTerm closed bases ((nested_grading l).parts term)) each
  exact sum.mono fun us hu => (nested_grading l).mono hu (same ▸ h.depth)

end Depth

/-! ### Adding -/

section Adding

variable {simplify : List (Term α (Node α)) → Checked (List (Term α (Node α)))}
  (inner : ∀ {k} {ts : List (Term α (Node α))}, (Node.sum ts).Nested l k →
    Rests (fun us => (Node.sum us).Nested l k) (fun calls => calls.simplifyTerms ts) (simplify ts))

theorem nested_overShared {t : Term α (Node α)} {fs gs : List (Factor (Node α))}
    (ht : (Node.product t).Nested l (k + 1)) (each : ∀ f ∈ fs ++ gs, f.Nested l k) :
    (Node.product (t.overShared ((Tally.ofList Factor.same fs).union Factor.same
      (Tally.ofList Factor.same gs)))).Nested l (k + 1) := by
  unfold Term.overShared
  dsimp only
  split
  · exact ht
  · have lacking : ∀ f ∈ Tally.excess Factor.same ((Tally.ofList Factor.same fs).union Factor.same
        (Tally.ofList Factor.same gs)) (Tally.ofList Factor.same t.realDivisors), f.Nested l k := by
      intro f hf
      exact each f (Tally.mem_filling hf)
    obtain ⟨above, below⟩ := Term.forall_realParts.1 ((nested_grading l).parts ht)
    refine (nested_grading l).normal _ _ (List.forall_mem_append.2 ⟨?_, ?_⟩)
    · exact List.forall_mem_append.2 ⟨above, lacking⟩
    · exact List.forall_mem_append.2 ⟨below, lacking⟩

include inner

/-- Adding two terms simplifies the sum of their numerators over the common denominator. -/
theorem rests_addTerms {t u : Term α (Node α)} (ht : (Node.product t).Nested l (k + 1))
    (hu : (Node.product u).Nested l (k + 1)) :
    Rests (Exponent (l + 1)) (fun calls => Node.addTerms calls.simplifyTerms t u)
      (Node.addTerms simplify t u) := by
  have whole : ∀ {k n} {d : α} {fs gs : List (Factor (Node α))}, (∀ f ∈ fs ++ gs, f.Nested l k) →
      Exponent (l + 1) (Node.product (Term.normal n d fs gs)) :=
    fun each => ((nested_grading l).normal _ _ each).exponent
  unfold Node.addTerms
  refine .ite (fun _ => .ok ht.clone.exponent) fun _ => ?_
  refine .ite (fun _ => .ok hu.clone.exponent) fun _ => ?_
  have divisors := (Term.forall_realParts.1 ((nested_grading l).parts ht)).2
  have divisors' := (Term.forall_realParts.1 ((nested_grading l).parts hu)).2
  have shared := List.forall_mem_append.2 ⟨divisors, divisors'⟩
  have left := nested_overShared ht shared
  have right := nested_overShared hu shared
  dsimp only
  generalize t.overShared _ = v at left ⊢
  generalize u.overShared _ = w at right ⊢
  obtain ⟨above, below⟩ := Term.forall_realParts.1 ((nested_grading l).parts left)
  obtain ⟨above', -⟩ := Term.forall_realParts.1 ((nested_grading l).parts right)
  apply Rests.ite
  · intro _
    apply Rests.still
    intro r result
    obtain ⟨s, combined, rest⟩ := bind_eq_ok.1 result
    obtain ⟨⟨n, d⟩, -, built⟩ := bind_eq_ok.1 combined
    cases rest
    cases built
    exact whole ((nested_grading l).parts left)
  · intro _
    have numerators : ∀ s ∈ [Term.normal v.numerator v.denominator v.realFactors [],
        Term.normal w.numerator w.denominator w.realFactors []],
        (Node.product s).Nested l (k + 1) := by
      have alone : ∀ {fs : List (Factor (Node α))}, (∀ f ∈ fs, f.Nested l k) →
          ∀ f ∈ fs ++ [], f.Nested l k :=
        fun each => List.forall_mem_append.2 ⟨each, List.forall_mem_nil _⟩
      refine List.forall_mem_cons.2 ⟨?_, List.forall_mem_singleton.2 ?_⟩
      · exact (nested_grading l).normal _ _ (alone above)
      · exact (nested_grading l).normal _ _ (alone above')
    refine (inner ((nested_grading l).flattenedTerms numerators)).bind fun ts sum => ?_
    refine .ite (fun _ => .ok sum.exponent) fun _ => .ok (whole (k := k + 2) ?_)
    -- the sum becomes the base of a factor beside the common denominator
    have deeper : ∀ g ∈ v.realDivisors, g.Nested l (k + 2) := by
      intro g hg
      exact (nested_grading l).under_mono (below g hg) (Nat.le_add_right k 2)
    exact List.forall_mem_cons.2 ⟨(nested_grading l).under_number sum 1, deeper⟩

theorem rests_addWith {m n : Node α} (hm : m.Nested l k) (hn : n.Nested l k) :
    Rests (Exponent (l + 1)) (fun calls => Node.addWith calls.simplifyTerms m n)
      (Node.addWith simplify m n) := by
  have fits : ∀ {n : Node α}, n.Nested l k → n.Fits (Nested l) (fun _ => Exponent l) k :=
    fun h => .inl ((nested_grading l).asFactor h)
  have terms : ∀ {ts : List (Term α (Node α))}, (Node.sum ts).Nested l k →
      ∀ t ∈ ts, (Node.product t).Nested l (k + 1) := by
    intro ts h t ht
    exact (nested_grading l).mono ((nested_grading l).term h t ht) (Nat.le_succ k)
  have sum : ∀ {ts us : List (Term α (Node α))}, (∀ t ∈ ts, (Node.product t).Nested l (k + 1)) →
      (∀ u ∈ us, (Node.product u).Nested l (k + 1)) →
      Rests (Exponent (l + 1))
        (fun calls => do return .sum (← calls.simplifyTerms (Node.flattenedTerms (ts ++ us))))
        (do return .sum (← simplify (Node.flattenedTerms (ts ++ us)))) := by
    intro ts us ht hu
    have flat := (nested_grading l).flattenedTerms (List.forall_mem_append.2 ⟨ht, hu⟩)
    exact (inner flat).bind fun ks hk => .ok hk.exponent
  unfold Node.addWith
  split
  · exact .ok ((nested_grading l).number k _).exponent
  · refine sum (terms hm) ?_
    unfold Node.addends
    split
    · exact terms hn
    · exact List.forall_mem_singleton.2 ((nested_grading l).wrap (fits hn))
  · have flat := (nested_grading l).flattened (List.forall_mem_singleton.2 (fits hm))
    obtain ⟨j, same, each⟩ := exists_depth flat
    obtain rfl : k = j := by omega
    exact sum each (terms hn)
  · exact rests_addTerms inner ((nested_grading l).wrap (fits hm))
      ((nested_grading l).wrap (fits hn))

end Adding

/-! ### Up the levels -/

/-- The rules for exponents of a level are what the calls come to. -/
theorem answers_exponentRules (l : Nat) : Answers l (Node.exponentRules l : ExponentRules α) := by
  induction l with
  | zero =>
    -- the exponents are plain numbers, and adding two of them calls nothing
    constructor
    · intro m n hm hn
      obtain ⟨x, rfl⟩ := hm.of_zero
      obtain ⟨y, rfl⟩ := hn.of_zero
      exact .step (.ok (exponent_number 0 _))
    · intro e he
      obtain ⟨x, rfl⟩ := he.of_zero
      exact .step (.step (.ok (exponent_number 0 x)))
  | succ l ih =>
    constructor
    · intro m n hm hn
      -- one depth for both; what they add up to may be deeper, but is of the level again
      have deeper : ∀ {e : Node α}, Exponent (l + 1) e → e.depth ≤ max m.depth n.depth →
          e.Nested l (max m.depth n.depth) :=
        fun h le => (nested_grading l).mono h.nested le
      exact .step (rests_addWith (rests_simplifySumWith ih) (deeper hm (Nat.le_max_left _ _))
        (deeper hn (Nat.le_max_right _ _)))
    · intro e he
      refine (rests_simplifyAt ih he.nested (Nat.le_refl _)).bind fun s hs => ?_
      have reduced : Rests (· = s.reduce) (fun calls : Calls α => calls.reduce s) (.ok s.reduce) :=
        rests_reduce ⟨Nat.le_refl _, hs.filled⟩
      refine reduced.mono ?_
      rintro _ rfl
      exact hs.reduce.exponent

theorem rests_simplify {n : Node α} (filled : n.Filled) :
    Rests (Nested n.level n.depth) (fun calls => calls.simplify n) n.simplify :=
  rests_simplifyAt (answers_exponentRules n.level) (Node.nested_self filled) (Nat.le_refl _)

/-- Levels and depths that are greater than those of the expression change nothing. -/
theorem simplifyAt_eq {depth : Nat} {n : Node α} (h : n.Nested l k) (deep : k ≤ depth) :
    Node.simplifyAt (Node.exponentRules l) depth n = n.simplify :=
  (rests_simplifyAt (answers_exponentRules l) h deep).unique (rests_simplify h.filled)

theorem rests_add {m n : Node α} (left : m.Filled) (right : n.Filled) :
    Rests Node.Filled (fun calls => calls.add m n) (m.add n) := by
  have sums : ∀ {l k} {ts : List (Term α (Node α))}, (Node.sum ts).Nested l k →
      Rests (fun us => (Node.sum us).Nested l k) (fun calls => calls.simplifyTerms ts)
        (Node.simplifyTerms ts) := by
    intro l k ts h
    have own := rests_simplifySumWith (answers_exponentRules _) (Node.nested_self h.filled)
    refine own.mono fun us hu => ?_
    exact ⟨Nat.le_trans hu.level h.level, Nat.le_trans hu.depth h.depth, hu.filled⟩
  have wider : ∀ {e : Node α}, e.Filled → e.level ≤ max m.level n.level →
      e.depth ≤ max m.depth n.depth → e.Nested (max m.level n.level) (max m.depth n.depth) :=
    fun filled level depth => ⟨level, depth, filled⟩
  have total := rests_addWith sums (wider left (Nat.le_max_left _ _) (Nat.le_max_left _ _))
    (wider right (Nat.le_max_right _ _) (Nat.le_max_right _ _))
  exact (total.step).mono fun _ h => h.2

/-- Simplifying, reducing and adding come to an end, whatever the exponents are: from some number of
nested calls on they have their results, and what would be answered below does not matter. All sums
have terms, as a sum that is built has (`Node.flattened_ne_nil`). -/
theorem simplify_ends {m n : Node α} (left : m.Filled) (right : n.Filled) :
    ∃ k, ∀ (stop : Calls α) (j : Nat), k ≤ j →
      (stop.nested j).simplify n = n.simplify ∧ (stop.nested j).reduce n = .ok n.reduce ∧
        (stop.nested j).add m n = m.add n := by
  have reduced : Rests (· = n.reduce) (fun calls : Calls α => calls.reduce n) (.ok n.reduce) :=
    rests_reduce ⟨Nat.le_refl _, right⟩
  obtain ⟨a, simplifies⟩ := (rests_simplify right).ends
  obtain ⟨b, reduces⟩ := reduced.ends
  obtain ⟨c, adds⟩ := (rests_add left right).ends
  refine ⟨max a (max b c), ?_⟩
  intro stop j le
  exact ⟨simplifies stop j (by omega), reduces stop j (by omega), adds stop j (by omega)⟩

/-- A power whose exponent is a sum of fractions over a power, times another power of its base. -/
theorem simplify_ends_fractions :
    let x : Node ℚ := .var ⟨'x', 0⟩ false
    let y : Node ℚ := .var ⟨'y', 0⟩ false
    let z : Node ℚ := .var ⟨'z', 0⟩ false
    let t : Term ℚ (Node ℚ) := Term.normal 1 1 [⟨y, .number 1⟩] [⟨z, y⟩]
    let u : Term ℚ (Node ℚ) := Term.normal 1 2 [] [⟨z, .number 3⟩]
    let n : Node ℚ :=
      .product (Term.normal 1 1 [⟨x, .sum (Node.flattenedTerms [t, u])⟩, ⟨x, .product t⟩] [])
    (n.Filled ∧ n.level = 2) ∧ ∃ k, ∀ (stop : Calls ℚ) (j : Nat), k ≤ j →
      (stop.nested j).simplify n = n.simplify ∧ (stop.nested j).reduce n = .ok n.reduce ∧
        (stop.nested j).add n n = n.add n := by
  intro x y z t u n
  have bare : ∀ {l} (v : Variable), (Node.var v false : Node ℚ).Nested l 0 :=
    fun v => (nested_grading _).var 0 v false
  have first : (Node.product t).Nested 1 1 := by
    apply (nested_grading 1).normal
    refine List.forall_mem_cons.2 ⟨?_, List.forall_mem_singleton.2 ?_⟩
    · exact ⟨bare _, exponent_number 1 1⟩
    · exact ⟨bare _, (bare _).exponent⟩
  have second : (Node.product u).Nested 1 1 := by
    apply (nested_grading 1).normal
    refine List.forall_mem_singleton.2 ?_
    exact ⟨bare _, exponent_number 1 3⟩
  have sum := (nested_grading 1).flattenedTerms
    (List.forall_mem_cons.2 ⟨first, List.forall_mem_singleton.2 second⟩)
  have whole : n.Nested 2 1 := by
    apply (nested_grading 2).normal
    refine List.forall_mem_cons.2 ⟨?_, List.forall_mem_singleton.2 ?_⟩
    · exact ⟨bare _, sum.exponent⟩
    · exact ⟨bare _, first.exponent⟩
  refine ⟨⟨whole.filled, ?_⟩, simplify_ends whole.filled whole.filled⟩
  decide +kernel

end Calls

end SymbolicAlgebra
