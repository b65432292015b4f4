/-
  Arithmetic
  ==========
  Simplifying, adding, multiplying and expanding compute with the parts of what they
  are given and with numbers. A property that carries over holds of the result when it
  holds of the operands (**`Node.carry_simplify`**, **`Node.carry_add`**,
  **`Node.carry_multiply`**, **`Node.carry_expand`**). The proof follows the recursion of
  simplifying, first down the depth of a tree and then up the levels of its exponents.

  A sum or a product that is a term is one that was just built (`Node.Built`).
-/
import SymbolicAlgebra.Node.Expand
import SymbolicAlgebra.Proofs.Algebra.Matching
import SymbolicAlgebra.Proofs.Checked
import SymbolicAlgebra.Proofs.CarryOver.Building

namespace SymbolicAlgebra

variable {α : Type} [Scalar α] {Q : Place → Node α → Prop} [CarriesToSums Q] {p : Place}

namespace Term

theorem carry_combine {t u : Term α (Node α)} (h : Q p (.product t)) :
    Yields (fun t => Q p (.product t)) (t.combine u) := by
  intro r combined
  obtain ⟨⟨n, d⟩, -, rest⟩ := bind_eq_ok.1 combined
  cases rest
  obtain ⟨upper, lower⟩ := CarriesOver.factors h
  exact carry_normal upper lower n d

/-- The property carries over to a term over a common denominator. -/
theorem carry_overShared {t : Term α (Node α)} (h : Q p (.product t))
    {fs gs : List (Factor (Node α))} (above : ∀ f ∈ fs, Q .inside (.power f))
    (below : ∀ g ∈ gs, Q .inside (.power g)) :
    Q p (.product (t.overShared ((Tally.ofList Factor.same fs).union Factor.same
      (Tally.ofList Factor.same gs)))) := by
  unfold overShared
  dsimp only
  split
  · exact h
  · obtain ⟨upper, lower⟩ := CarriesOver.factors h
    have lacking : ∀ f ∈ Tally.excess Factor.same ((Tally.ofList Factor.same fs).union Factor.same
        (Tally.ofList Factor.same gs)) (Tally.ofList Factor.same t.realDivisors),
        Q .inside (.power f) := by
      intro f hf
      exact List.forall_mem_append.2 ⟨above, below⟩ f (Tally.mem_filling hf)
    exact carry_normal (List.forall_mem_append.2 ⟨upper, lacking⟩)
      (List.forall_mem_append.2 ⟨lower, lacking⟩) _ _

end Term

namespace Node

/-! ### Simplifying products -/

/-- The property carries over to what the rules make of exponents. -/
structure ExponentRules.Carried (Q : Place → Node α → Prop) (rules : ExponentRules α) : Prop where
  add : ∀ {m n}, Place.Exponent Q .inside m → Place.Exponent Q .inside n →
    Yields (Place.Exponent Q .inside) (rules.add m n)
  tidy : ∀ {p n}, Place.Exponent Q p n → Yields (Place.Exponent Q p) (rules.tidy n)

section Depth

variable {rules : ExponentRules α} (closed : ExponentRules.Carried Q rules)
  {simplify : Node α → Checked (Node α)}
  (inner : ∀ {p n}, Q p n → Yields (Q p) (simplify n))

include closed

theorem carry_collectOne {f : Factor (Node α)} (hf : Q .inside (.power f))
    {gs : List (Factor (Node α))} (hg : ∀ g ∈ gs, Q .inside (.power g)) :
    Yields (∀ g ∈ ·, Q .inside (.power g)) (collectOne rules f gs) := by
  induction gs with
  | nil => exact .ok (List.forall_mem_singleton.2 hf)
  | cons g gs ih =>
    obtain ⟨first, rest⟩ := List.forall_mem_cons.1 hg
    obtain ⟨base, exponent⟩ := CarriesOver.power.1 first
    rw [collectOne]
    split
    · refine (closed.add exponent (CarriesOver.power.1 hf).2).bind fun sum hsum => ?_
      exact .ok (List.forall_mem_cons.2 ⟨CarriesOver.mkPower base hsum, rest⟩)
    · refine (ih rest).bind fun grouped hgrouped => ?_
      exact .ok (List.forall_mem_cons.2 ⟨first, hgrouped⟩)

theorem carry_collect {fs : List (Factor (Node α))} (h : ∀ f ∈ fs, Q .inside (.power f)) :
    Yields (∀ f ∈ ·, Q .inside (.power f)) (collect rules fs) :=
  .foldlM (fun f hf _ kept => carry_collectOne closed (h f hf) kept) (List.forall_mem_nil _)

theorem carry_tidyExponents {fs : List (Factor (Node α))} (h : ∀ f ∈ fs, Q .inside (.power f)) :
    Yields (∀ f ∈ ·, Q .inside (.power f)) (tidyExponents rules fs) := by
  refine .mapM fun f hf => ?_
  obtain ⟨base, exponent⟩ := CarriesOver.power.1 (h f hf)
  exact (closed.tidy exponent).bind fun tidied ht => .ok (CarriesOver.mkPower base ht)

omit closed in
theorem carry_cancelOne {f : Factor (Node α)} (hf : Q .inside (.power f))
    {gs : List (Factor (Node α))} (hg : ∀ g ∈ gs, Q .inside (.power g)) :
    (∀ k ∈ (cancelOne f gs).1.toList, Q .inside (.power k)) ∧
      ∀ g ∈ (cancelOne f gs).2, Q .inside (.power g) := by
  induction gs with
  | nil => exact ⟨List.forall_mem_singleton.2 hf, hg⟩
  | cons g gs ih =>
    obtain ⟨first, rest⟩ := List.forall_mem_cons.1 hg
    obtain ⟨base, exponent⟩ := CarriesOver.power.1 hf
    obtain ⟨base', exponent'⟩ := CarriesOver.power.1 first
    rw [cancelOne]
    split
    · split
      · rename_i x y shown shown'
        rw [shown] at exponent
        rw [shown'] at exponent'
        split
        · rename_i less
          have left := CarriesOver.mkPower base (CarriesOver.cancelled exponent exponent' less)
          exact ⟨List.forall_mem_singleton.2 left, rest⟩
        · split
          · rename_i less
            have left := CarriesOver.mkPower base' (CarriesOver.cancelled exponent' exponent less)
            exact ⟨List.forall_mem_nil _, List.forall_mem_cons.2 ⟨left, rest⟩⟩
          · exact ⟨List.forall_mem_nil _, rest⟩
      · exact ⟨List.forall_mem_singleton.2 hf, hg⟩
    · obtain ⟨kept, left⟩ := ih rest
      exact ⟨kept, List.forall_mem_cons.2 ⟨first, left⟩⟩

omit closed in
theorem carry_cancel {fs gs : List (Factor (Node α))} (hf : ∀ f ∈ fs, Q .inside (.power f))
    (hg : ∀ g ∈ gs, Q .inside (.power g)) :
    (∀ f ∈ (cancel fs gs).1, Q .inside (.power f)) ∧
      ∀ g ∈ (cancel fs gs).2, Q .inside (.power g) := by
  induction fs generalizing gs with
  | nil => exact ⟨hf, hg⟩
  | cons f fs ih =>
    obtain ⟨first, rest⟩ := List.forall_mem_cons.1 hf
    obtain ⟨kept, left⟩ := carry_cancelOne first hg
    obtain ⟨above, below⟩ := ih rest left
    rw [cancel]
    exact ⟨List.forall_mem_append.2 ⟨kept, above⟩, below⟩

include inner

theorem carry_simplifyFactor {f : Factor (Node α)} (h : Q p (.power f)) :
    Yields (fun f => Q p (.power f)) (simplifyFactor rules simplify f) := by
  obtain ⟨base, exponent⟩ := CarriesOver.power.1 h
  refine (inner base).bind fun b hb => (closed.tidy exponent).bind fun e he => ?_
  have reduced : Q .inside b.reduce := carry_reduce hb
  dsimp only
  split
  · rename_i zero
    exact .ok (CarriesOver.mkPower (CarriesOver.number 1) (CarriesOver.vanished he zero))
  · split
    · split
      · exact .ok (CarriesOver.mkPower (carry_ofValue _) (CarriesOver.exponent_at CarriesOver.one))
      · exact .ok (CarriesOver.mkPower reduced he)
    · exact .ok (CarriesOver.mkPower reduced he)

theorem carry_simplifyTerm {q : Place} {t : Term α (Node α)} (h : Q p (.product t)) :
    Yields (fun t => Q q (.product t)) (simplifyTerm rules simplify t) := by
  obtain ⟨upper, lower⟩ := CarriesOver.factors h
  have factors : ∀ {fs : List (Factor (Node α))}, (∀ f ∈ fs, Q .inside (.power f)) →
      Yields (∀ f ∈ ·, Q .inside (.power f)) (fs.mapM (simplifyFactor rules simplify)) :=
    fun all => .mapM fun f hf => carry_simplifyFactor closed inner (all f hf)
  refine (factors upper).bind fun fs hf => (carry_collect closed hf).bind fun above ha => ?_
  refine (factors lower).bind fun gs hg => (carry_collect closed hg).bind fun below hb => ?_
  obtain ⟨kept, left⟩ := carry_cancel ha hb
  refine (carry_tidyExponents closed kept).bind fun top ht => ?_
  refine (carry_tidyExponents closed left).bind fun bottom hu => ?_
  have term : Q q (.product (Term.normal t.numerator t.denominator top bottom)) :=
    Term.carry_normal ht hu _ _
  dsimp only
  split
  · exact .ok (Term.carry_ofValue 0)
  · obtain ⟨upper, lower⟩ := CarriesOver.factors term
    intro r result
    obtain ⟨⟨n, d⟩, -, rest⟩ := bind_eq_ok.1 result
    cases rest
    exact Term.carry_normal upper lower n d

/-! ### Simplifying sums -/

omit closed inner

section Sum

variable {step : Term α (Node α) → Checked (Term α (Node α))}
  (stepped : ∀ {t}, Q .inside (.product t) → Yields (fun t => Q .inside (.product t)) (step t))

include stepped

theorem carry_mergeOne {t : Term α (Node α)} (ht : Q .inside (.product t))
    {us : List (Term α (Node α))} (hu : ∀ u ∈ us, Q .inside (.product u)) :
    Yields (∀ u ∈ ·, Q .inside (.product u)) (mergeOne step t us) := by
  induction us with
  | nil => exact .ok (List.forall_mem_singleton.2 ht)
  | cons u us ih =>
    obtain ⟨first, rest⟩ := List.forall_mem_cons.1 hu
    rw [mergeOne]
    split
    · refine (Term.carry_combine first).bind fun k hk => (stepped hk).bind fun v hv => ?_
      exact .ok (List.forall_mem_cons.2 ⟨hv, rest⟩)
    · refine (ih rest).bind fun merged hm => ?_
      exact .ok (List.forall_mem_cons.2 ⟨first, hm⟩)

theorem carry_simplifySum {ts : List (Term α (Node α))} (h : ∀ t ∈ ts, Q .inside (.product t)) :
    Yields (fun ts => Q p (.sum ts)) (simplifySum step ts) := by
  have merged : Yields (∀ t ∈ ·, Q .inside (.product t))
      (ts.foldlM (fun merged t => do mergeOne step (← step t) merged) []) := by
    refine .foldlM (fun t ht merged kept => ?_) (List.forall_mem_nil _)
    exact (stepped (h t ht)).bind fun u hu => carry_mergeOne stepped hu kept
  exact merged.bind fun us hu => .ok (carry_flattenedTerms hu)

end Sum

include closed

theorem carry_simplifyAt {depth : Nat} {n : Node α} (h : Q p n) :
    Yields (Q p) (simplifyAt rules depth n) := by
  induction depth generalizing p n with
  | zero => exact .ok h
  | succ depth ih =>
    unfold simplifyAt
    split
    · exact (carry_simplifyFactor closed ih h).bind fun f hf => .ok hf
    · exact (carry_simplifyTerm closed ih h).bind fun t ht => .ok ht
    · have sum := carry_simplifySum (p := p) (carry_simplifyTerm closed ih) (CarriesOver.terms h)
      exact sum.bind fun ts ht => .ok ht
    · exact (ih (CarriesOver.unary.1 h)).bind fun x hx => .ok (CarriesOver.unary.2 hx)
    · obtain ⟨first, second⟩ := CarriesOver.binary.1 h
      refine (ih first).bind fun x hx => (ih second).bind fun y hy => ?_
      exact .ok (CarriesOver.binary.2 ⟨hx, hy⟩)
    · exact .ok h

theorem carry_simplifySumWith {q : Place} {ts : List (Term α (Node α))} (h : Q p (.sum ts)) :
    Yields (fun ts => Q q (.sum ts)) (simplifySumWith rules ts) :=
  carry_simplifySum (carry_simplifyTerm closed (carry_simplifyAt closed)) (CarriesOver.terms h)

end Depth

/-! ### Adding -/

/-- An expression with the property that is no term, or a term built from factors with it. -/
inductive Built (Q : Place → Node α → Prop) : Node α → Prop
  | other {n : Node α} (holds : Q .inside n) (noTerm : ∀ t, n ≠ .product t) : Built Q n
  | term {fs gs : List (Factor (Node α))} (above : ∀ f ∈ fs, Q .inside (.power f))
    (below : ∀ g ∈ gs, Q .inside (.power g)) (n d : α) : Built Q (.product (Term.normal n d fs gs))

theorem Built.inside {n : Node α} (h : Built Q n) : Q .inside n := by
  cases h with
  | other holds _ => exact holds
  | term above below n d => exact Term.carry_normal above below n d

theorem built_clone {t : Term α (Node α)} (h : Q .inside (.product t)) :
    Built Q (.product t.clone) := by
  obtain ⟨upper, lower⟩ := CarriesOver.factors h
  exact .term (carry_cloneFactors fun f hf => carry_clone (upper f hf))
    (carry_cloneFactors fun g hg => carry_clone (lower g hg)) _ _

section Adding

variable {simplify : List (Term α (Node α)) → Checked (List (Term α (Node α)))}
  (inner : ∀ {ts}, Q .inside (.sum ts) → Yields (fun ts => Q .inside (.sum ts)) (simplify ts))

include inner

/-- What two terms add up to. -/
theorem built_addTerms {t u : Term α (Node α)} (ht : Q .inside (.product t))
    (hu : Q .inside (.product u)) : Yields (Built Q) (addTerms simplify t u) := by
  unfold addTerms
  split
  · exact .ok (built_clone ht)
  · split
    · exact .ok (built_clone hu)
    · have divisors := (CarriesOver.factors ht).2
      have divisors' := (CarriesOver.factors hu).2
      have left := Term.carry_overShared ht divisors divisors'
      have right := Term.carry_overShared hu divisors divisors'
      dsimp only
      generalize t.overShared _ = v at left ⊢
      generalize u.overShared _ = w at right ⊢
      obtain ⟨above, below⟩ := CarriesOver.factors left
      split
      · intro r result
        obtain ⟨k, combined, rest⟩ := bind_eq_ok.1 result
        obtain ⟨⟨n, d⟩, -, built⟩ := bind_eq_ok.1 combined
        cases rest
        cases built
        exact .term above below n d
      · have numerators : ∀ k ∈ [Term.normal v.numerator v.denominator v.realFactors [],
            Term.normal w.numerator w.denominator w.realFactors []], Q .inside (.product k) := by
          refine List.forall_mem_cons.2 ⟨?_, List.forall_mem_singleton.2 ?_⟩
          · exact Term.carry_normal above (List.forall_mem_nil _) _ _
          · exact Term.carry_normal (CarriesOver.factors right).1 (List.forall_mem_nil _) _ _
        refine (inner (carry_flattenedTerms numerators)).bind fun ts sum => ?_
        split
        · exact .ok (.other sum nofun)
        · refine .ok (.term (List.forall_mem_singleton.2 ?_) below 1 1)
          exact CarriesOver.mkPower sum CarriesOver.one

theorem built_addWith {m n : Node α} (hm : Q p m) (hn : Q p n) :
    Yields (Built Q) (addWith simplify m n) := by
  have addends : ∀ t ∈ addends n, Q .inside (.product t) := by
    unfold Node.addends
    split
    · exact CarriesOver.terms hn
    · exact List.forall_mem_singleton.2 (Term.carry_wrap hn)
  have sum : ∀ {ts us : List (Term α (Node α))}, (∀ t ∈ ts, Q .inside (.product t)) →
      (∀ u ∈ us, Q .inside (.product u)) →
      Yields (Built Q) (do return .sum (← simplify (flattenedTerms (ts ++ us)))) := by
    intro ts us ht hu
    refine (inner (carry_flattenedTerms (List.forall_mem_append.2 ⟨ht, hu⟩))).bind fun ks hk => ?_
    exact .ok (.other hk nofun)
  unfold addWith
  split
  · exact .ok (.other (carry_ofValue _) nofun)
  · exact sum (CarriesOver.terms hm) addends
  · have flat : Q .inside (.sum (flattened [m])) :=
      carry_flattened (List.forall_mem_singleton.2 hm)
    exact sum (CarriesOver.terms flat) (CarriesOver.terms hn)
  · exact built_addTerms inner (Term.carry_wrap hm) (Term.carry_wrap hn)

/-- The sum of two exponents is an exponent. -/
theorem carry_addedExponents {m n : Node α} (hm : Place.Exponent Q .inside m)
    (hn : Place.Exponent Q .inside n) :
    Yields (Place.Exponent Q .inside) (addWith simplify m n) := by
  intro r result
  have sum := built_addWith inner (CarriesOver.exponent hm) (CarriesOver.exponent hn) r result
  refine CarriesOver.added hm hn sum.inside ?_
  rintro x y rfl rfl
  exact (Except.ok.inj result).symm

end Adding

theorem carry_exponentRules (level : Nat) :
    ExponentRules.Carried Q (exponentRules level : ExponentRules α) := by
  induction level with
  | zero =>
    refine ⟨carry_addedExponents fun h => .ok h, fun h => .ok ?_⟩
    refine CarriesOver.rewritten h (carry_reduce (CarriesOver.exponent h)) ?_
    rintro x rfl
    exact reduceAt_number _ x
  | succ level ih =>
    refine ⟨carry_addedExponents (carry_simplifySumWith ih), fun h r result => ?_⟩
    have tidied : Yields (Q .inside) ((exponentRules (level + 1) : ExponentRules α).tidy _) :=
      (carry_simplifyAt ih (CarriesOver.exponent h)).bind fun m hm => .ok (carry_reduce hm)
    refine CarriesOver.rewritten h (tidied r result) ?_
    rintro x rfl
    exact (Except.ok.inj result).symm

theorem carry_simplifyTerms {q : Place} {ts : List (Term α (Node α))} (h : Q p (.sum ts)) :
    Yields (fun ts => Q q (.sum ts)) (simplifyTerms ts) :=
  carry_simplifySumWith (carry_exponentRules _) h

/-- The property carries over to the simplified expression. -/
theorem carry_simplify {n : Node α} (h : Q p n) : Yields (Q p) n.simplify :=
  carry_simplifyAt (carry_exponentRules _) h

theorem built_add {m n : Node α} (hm : Q p m) (hn : Q p n) : Yields (Built Q) (m.add n) :=
  built_addWith carry_simplifyTerms hm hn

/-- The property carries over to sums. -/
theorem carry_add {m n : Node α} (hm : Q p m) (hn : Q p n) : Yields (Q .inside) (m.add n) :=
  (built_add hm hn).mono fun _ => Built.inside

/-! ### Multiplying -/

theorem built_timesTerm {m n : Node α} (hm : Q p m) (hn : Q p n) : Built Q (timesTerm m n) := by
  have left : Q .inside (.product (Term.wrap m)) := Term.carry_wrap hm
  have right : Q .inside (.product (Term.wrap n)) := Term.carry_wrap hn
  obtain ⟨upper, lower⟩ := CarriesOver.factors left
  obtain ⟨upper', lower'⟩ := CarriesOver.factors right
  exact .term (List.forall_mem_append.2 ⟨upper, upper'⟩) (List.forall_mem_append.2 ⟨lower, lower'⟩)
    _ _

theorem carry_crossTerms {ts us : List (Term α (Node α))} (ht : ∀ t ∈ ts, Q p (.product t))
    (hu : ∀ u ∈ us, Q p (.product u)) : ∀ k ∈ crossTerms ts us, Q p (.product k) := by
  rw [crossTerms, List.forall_mem_flatMap]
  intro t member
  rw [List.forall_mem_map]
  exact fun u hk => Term.carry_times (ht t member) (hu u hk)

theorem built_multiply {m n : Node α} (hm : Q p m) (hn : Q p n) :
    Yields (Built Q) (m.multiply n) := by
  unfold multiply
  split
  · exact .ok (.other (carry_ofValue _) nofun)
  · refine .ok ?_
    split
    · exact .other (CarriesOver.moved nofun (CarriesOver.constant hm _)) nofun
    · exact built_timesTerm hm hn
  · rename_i v negative w opposite
    have square : Q .inside (.power ⟨.var v false, .number (Scalar.ofInt 2)⟩) :=
      CarriesOver.mkPower (CarriesOver.moved nofun (CarriesOver.var hm _)) CarriesOver.two
    split
    · refine .ok ?_
      split
      · exact .term (List.forall_mem_singleton.2 square) (List.forall_mem_nil _) _ _
      · exact .other square nofun
    · exact .ok (built_timesTerm hm hn)
  · refine .ok ?_
    split
    · exact .other (CarriesOver.moved nofun (CarriesOver.var hm _)) nofun
    · exact built_timesTerm hm hn
  · have terms := carry_crossTerms (CarriesOver.terms hm) (CarriesOver.terms hn)
    have flat := carry_flattenedTerms (q := .inside) terms
    exact (carry_simplifyTerms flat).bind fun ks hk => .ok (.other hk nofun)
  · exact .ok (built_timesTerm hm hn)

/-- The property carries over to products. -/
theorem carry_multiply {m n : Node α} (hm : Q p m) (hn : Q p n) :
    Yields (Q .inside) (m.multiply n) :=
  (built_multiply hm hn).mono fun _ => Built.inside

theorem carry_negate {q : Place} {n : Node α} (h : Q p n) : Q q n.negate := by
  unfold negate
  split
  · exact carry_ofValue _
  · exact CarriesOver.moved nofun (CarriesOver.constant h _)
  · exact CarriesOver.moved nofun (CarriesOver.var h _)
  · exact CarriesOver.anywhere (built_timesTerm h (CarriesOver.number _)).inside

theorem carry_subtract {m n : Node α} (hm : Q p m) (hn : Q p n) :
    Yields (Q .inside) (m.subtract n) :=
  carry_add hm (carry_negate hn)

theorem carry_divide {m n : Node α} (hm : Q p m) (hn : Q p n) :
    Yields (Q .inside) (m.divide n) :=
  carry_multiply hm (Term.carry_fraction (CarriesOver.number 1) hn)

theorem carry_raise {m n : Node α} (hm : Q p m) (hn : Place.Exponent Q p n) : Q p (m.raise n) :=
  carry_raised hm hn

/-! ### Expanding -/

theorem carry_multiplyRepeatedly {m n : Node α} (hm : Q .inside m) (hn : Q .inside n)
    (count : Nat) : Yields (Q .inside) (m.multiplyRepeatedly n count) := by
  induction count generalizing m with
  | zero => exact .ok hm
  | succ count ih => exact (carry_multiply hm hn).bind fun k hk => ih hk

theorem carry_expandedPower {base exponent : Node α} (hb : Q .inside base)
    (he : Place.Exponent Q p exponent) :
    Yields (fun f => Q p (.power f)) (expandedPower base exponent) := by
  unfold expandedPower
  split
  · split
    · refine (carry_multiplyRepeatedly hb hb _).bind fun power hp => ?_
      exact .ok (CarriesOver.mkPower hp (CarriesOver.exponent_at CarriesOver.one))
    · exact .ok (CarriesOver.mkPower hb he)
  · exact .ok (CarriesOver.mkPower hb he)

theorem carry_splitSums {fs : List (Factor (Node α))} (h : ∀ f ∈ fs, Q .inside (.power f)) :
    (∀ ts ∈ (splitSums fs).1, Q .inside (Node.sum ts)) ∧
      ∀ f ∈ (splitSums fs).2, Q .inside (.power f) := by
  induction fs with
  | nil => exact ⟨List.forall_mem_nil _, List.forall_mem_nil _⟩
  | cons f fs ih =>
    obtain ⟨first, rest⟩ := List.forall_mem_cons.1 h
    obtain ⟨sums, others⟩ := ih rest
    rw [splitSums]
    generalize splitSums fs = parts at sums others
    obtain ⟨groups, left⟩ := parts
    dsimp only at sums others ⊢
    split
    · rename_i ts shown
      split
      · refine ⟨List.forall_mem_cons.2 ⟨?_, sums⟩, others⟩
        rw [← shown]
        exact (CarriesOver.power.1 first).1
      · exact ⟨sums, List.forall_mem_cons.2 ⟨first, others⟩⟩
    · exact ⟨sums, List.forall_mem_cons.2 ⟨first, others⟩⟩

theorem carry_expandedTerm {fs gs : List (Factor (Node α))}
    (above : ∀ f ∈ fs, Q .inside (.power f)) (below : ∀ g ∈ gs, Q .inside (.power g)) (n d : α) :
    Yields (Q p) (expandedTerm n d fs gs) := by
  obtain ⟨sums, others⟩ := carry_splitSums above
  unfold expandedTerm
  split
  · rename_i rest shown
    rw [shown] at others
    exact .ok (Term.carry_normal others below n d)
  · rename_i factors rest _ shown
    rw [shown] at sums others
    have first : Q .inside (.product (Term.normal n 1 rest [])) :=
      Term.carry_normal others (List.forall_mem_nil _) n 1
    have product : Yields (Q .inside) (factors.foldlM (fun (m : Node α) ts => m.multiply (.sum ts))
        (.sum (flattenedTerms [Term.normal n 1 rest []]))) :=
      .foldlM (fun ts ht m hm => carry_multiply hm (sums ts ht))
        (carry_flattenedTerms (List.forall_mem_singleton.2 first))
    refine product.bind fun k hk => ?_
    split
    · exact .ok (CarriesOver.anywhere hk)
    · refine .ok (Term.carry_normal (List.forall_mem_singleton.2 ?_) below 1 d)
      exact CarriesOver.mkPower hk CarriesOver.one

/-- The property carries over to the expanded expression. -/
theorem carry_expand {n : Node α} (h : Q p n) : Yields (Q p) n.expand := by
  induction n using Node.induction generalizing p with
  | number x => exact .ok h
  | constant c negative => exact .ok h
  | var v negative => exact .ok h
  | power f base exponent =>
    obtain ⟨upper, lower⟩ := CarriesOver.power.1 h
    have expanded : Yields (Place.Exponent Q p) f.exponent.expand := by
      intro e result
      refine CarriesOver.rewritten lower (exponent (CarriesOver.exponent lower) e result) ?_
      intro x number
      rw [number] at result
      exact (Except.ok.inj result).symm
    have factor : Yields (fun f => Q p (.power f)) f.expand :=
      (base upper).bind fun b hb => expanded.bind fun e he => carry_expandedPower hb he
    rw [expand_power]
    exact factor.bind fun k hk => .ok hk
  | product t above below =>
    have expanded : ∀ {fs : List (Factor (Node α))},
        (∀ f ∈ realFactors fs, Yields (Q .inside) (Node.power f).expand) →
          Yields (∀ f ∈ ·, Q .inside (.power f)) (expandFactors fs) := by
      intro fs each
      rw [expandFactors_eq]
      refine .mapM fun f hf k result => each f hf (.power k) ?_
      rw [expand_power, result]
      rfl
    obtain ⟨upper, lower⟩ := CarriesOver.factors h
    rw [expand_product]
    refine (expanded fun f hf => above f (List.mem_filter.1 hf).1 (upper f hf)).bind fun fs hf => ?_
    refine (expanded fun g hg => below g (List.mem_filter.1 hg).1 (lower g hg)).bind fun gs hg => ?_
    exact carry_expandedTerm hf hg _ _
  | sum ts each =>
    rw [expand, expandTerms_eq]
    have terms : Yields (∀ n ∈ ·, Q .inside n) (ts.mapM fun t => (Node.product t).expand) :=
      .mapM fun t ht => each t ht (CarriesOver.terms h t ht)
    refine terms.bind fun ns hn => ?_
    have flat := carry_flattened (q := .inside) hn
    exact (carry_simplifyTerms flat).bind fun us hu => .ok hu
  | unary f x ih =>
    rw [expand]
    exact (ih (CarriesOver.unary.1 h)).bind fun y hy => .ok (CarriesOver.unary.2 hy)
  | binary f x y left right =>
    obtain ⟨first, second⟩ := CarriesOver.binary.1 h
    rw [expand]
    refine (left first).bind fun x hx => (right second).bind fun y hy => ?_
    exact .ok (CarriesOver.binary.2 ⟨hx, hy⟩)

end Node

end SymbolicAlgebra
