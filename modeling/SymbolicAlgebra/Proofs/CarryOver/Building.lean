/-
  Building terms and sums
  =======================
  What a term is built from may dissolve, cross the bar or leave its sign behind, but
  a property that carries over holds of the term when it holds of these parts
  (**`Term.carry_normal`**), and of a sum when it holds of its summands
  (**`Node.carry_flattened`**). Rebuilding and reducing an expression are made of these
  two.

  The parts of a term may be powers that stood by themselves; what is left of them in
  the term stands inside. While a term is being built all its factors count, real or
  not; the ones that are certainly one are passed over before anything is built from
  them again.
-/
import SymbolicAlgebra.Node.Clone
import SymbolicAlgebra.Node.TermSize
import SymbolicAlgebra.Proofs.CarryOver.Property

namespace SymbolicAlgebra

variable {α : Type} [Scalar α] {Q : Place → Node α → Prop} {p : Place}

section Parts

variable [CarriesOver Q]

theorem Node.carry_asFactor {n : Node α} (h : Q p n) : Q p (.power n.asFactor) := by
  unfold asFactor
  split
  · exact h
  · rename_i other
    exact CarriesOver.mkPower (CarriesOver.moved other h) (CarriesOver.exponent_at CarriesOver.one)

theorem Node.carry_ofValue (x : α) : Q p (Node.ofValue x) := CarriesOver.number _

namespace Term

/-! ### Terms -/

/-- Every factor of the term has the property, also a factor that is certainly one. -/
def AllOver (P : Factor (Node α) → Prop) (t : Term α (Node α)) : Prop :=
  (∀ f ∈ t.factors, P f) ∧ ∀ f ∈ t.divisors, P f

/-- The factors on one side of the bar: each has the property, or they are the one that stands for
an empty product. -/
def Listed (P : Factor (Node α) → Prop) (fs : List (Factor (Node α))) : Prop :=
  fs = [Factor.empty] ∨ fs ≠ [] ∧ ∀ f ∈ fs, P f

section AllOver

variable {P : Factor (Node α) → Prop} {t : Term α (Node α)}

omit [Scalar α] in
theorem AllOver.push (h : t.AllOver P) {f : Factor (Node α)} (hf : P f) (above : Bool) :
    (t.push above f).AllOver P := by
  have added : ∀ {fs : List (Factor (Node α))}, (∀ g ∈ fs, P g) → ∀ g ∈ fs ++ [f], P g := by
    intro fs all
    rw [List.forall_mem_append]
    exact ⟨all, List.forall_mem_singleton.2 hf⟩
  cases above
  · exact ⟨h.1, added h.2⟩
  · exact ⟨added h.1, h.2⟩

theorem AllOver.scale (h : t.AllOver P) (above : Bool) (x : α) : (t.scale above x).AllOver P := by
  cases above
  · exact h
  · exact h

theorem AllOver.scaleBy (h : t.AllOver P) (above : Bool) (u : Term α (Node α)) :
    (t.scaleBy above u).AllOver P := by
  cases above
  · exact h
  · exact h

theorem Listed.each {fs : List (Factor (Node α))} (h : Listed P fs) :
    ∀ f ∈ fs, f = Factor.empty ∨ P f := by
  rcases h with rfl | ⟨-, all⟩
  · exact List.forall_mem_singleton.2 (.inl rfl)
  · exact fun f hf => .inr (all f hf)

/-- The last step of building a term writes an empty product as a factor. -/
theorem AllOver.settled (h : t.AllOver P) :
    Listed P t.settled.factors ∧ Listed P t.settled.divisors := by
  have filled : ∀ {fs : List (Factor (Node α))}, (∀ f ∈ fs, P f) →
      Listed P (if fs.isEmpty then [Factor.empty] else fs) := by
    intro fs all
    split
    · exact .inl rfl
    · rename_i present
      exact .inr ⟨fun none => present (List.isEmpty_iff.2 none), all⟩
  unfold Term.settled
  dsimp only
  split
  · exact ⟨filled h.1, filled h.2⟩
  · exact ⟨filled h.1, filled h.2⟩

end AllOver

/-- The factor has the property as a factor of a term. -/
def Inside (Q : Place → Node α → Prop) (f : Factor (Node α)) : Prop := Q .inside (.power f)

theorem carry_sides {q : Place} {t : Term α (Node α)} (h : Q p (.product t)) (above : Bool) :
    ∀ f ∈ t.sides above, Q q (.power f.1) := by
  obtain ⟨upper, lower⟩ := CarriesOver.factors h
  intro f hf
  simp only [sides, List.mem_append, List.mem_map] at hf
  rcases hf with ⟨f, hf, rfl⟩ | ⟨f, hf, rfl⟩
  · exact CarriesOver.anywhere (upper f hf)
  · exact CarriesOver.anywhere (lower f hf)

theorem AllOver.multiplyBy {t : Term α (Node α)} (h : t.AllOver (Inside Q)) {f : Factor (Node α)}
    (hf : Q .inside (.power f)) (above : Bool) : (t.multiplyBy above f).AllOver (Inside Q) := by
  obtain ⟨base, exponent⟩ := CarriesOver.power.1 hf
  have flipped : ∀ x : α,
      (if Scalar.isOdd x = true then { t with numerator := -t.numerator } else t).AllOver
        (Inside Q) := by
    intro x
    split
    · exact h
    · exact h
  unfold Term.multiplyBy
  dsimp only
  split
  · exact h.scale above _
  · rename_i v x written _
    rw [written] at base
    split
    · exact (flipped x).push (CarriesOver.mkPower (CarriesOver.var base _) exponent) above
    · exact h.push hf above
  · rename_i c x written _
    rw [written] at base
    split
    · exact (flipped x).push (CarriesOver.mkPower (CarriesOver.constant base _) exponent) above
    · exact h.push hf above
  · exact h.push hf above

/-- A power that stood by itself is inside the term once it is absorbed. -/
theorem AllOver.absorb {t : Term α (Node α)} (h : t.AllOver (Inside Q)) {f : Factor (Node α)}
    (hf : Q .alone (.power f)) (real : f.exponent.isZero = false) (above : Bool) :
    (t.absorb above f).AllOver (Inside Q) := by
  obtain ⟨base, exponent⟩ := CarriesOver.power.1 hf
  unfold Term.absorb
  split
  · rename_i x shown
    rw [shown] at exponent
    split
    · rename_i negative
      exact h.multiplyBy (CarriesOver.mkPower base (CarriesOver.crossed exponent negative)) _
    · rename_i positive
      refine h.multiplyBy (CarriesOver.power.2 ⟨base, ?_⟩) above
      rw [shown] at real ⊢
      refine CarriesOver.entered exponent real fun y same => ?_
      cases same
      simpa using positive
  · rename_i symbolic
    refine h.multiplyBy (CarriesOver.power.2 ⟨base, ?_⟩) above
    exact CarriesOver.entered exponent real fun x same => absurd same (symbolic x)

theorem AllOver.gather {pending : List (Factor (Node α) × Bool)} {t : Term α (Node α)}
    (waiting : ∀ f ∈ pending, Q .alone (.power f.1)) (h : t.AllOver (Inside Q)) :
    (gather pending t).AllOver (Inside Q) := by
  fun_induction Term.gather pending t with
  | case1 t => exact h
  | case2 t base exponent above rest zero ih =>
    exact ih (List.forall_mem_cons.1 waiting).2 h
  | case3 t exponent above rest zero unit u ih =>
    obtain ⟨first, rest⟩ := List.forall_mem_cons.1 waiting
    have inner : Q .inside (.product u) := (CarriesOver.power.1 first).1
    exact ih (List.forall_mem_append.2 ⟨rest, carry_sides inner above⟩) (h.scaleBy above u)
  | case4 t exponent above rest zero unit u ih =>
    obtain ⟨first, rest⟩ := List.forall_mem_cons.1 waiting
    have inner : Q .inside (.product u) :=
      CarriesOver.terms (CarriesOver.power.1 first).1 u List.mem_cons_self
    exact ih (List.forall_mem_append.2 ⟨rest, carry_sides inner above⟩) (h.scaleBy above u)
  | case5 t exponent above rest zero unit f ih =>
    obtain ⟨first, rest⟩ := List.forall_mem_cons.1 waiting
    have inner : Q .alone (.power f) := CarriesOver.anywhere (CarriesOver.power.1 first).1
    exact ih (List.forall_mem_append.2 ⟨rest, List.forall_mem_singleton.2 inner⟩) h
  | case6 t exponent above rest zero unit base _ _ _ ih =>
    obtain ⟨first, rest⟩ := List.forall_mem_cons.1 waiting
    exact ih rest (h.absorb first (by simpa using zero) above)
  | case7 t base exponent above rest zero composite ih =>
    obtain ⟨first, rest⟩ := List.forall_mem_cons.1 waiting
    exact ih rest (h.absorb first (by simpa using zero) above)

/-- The property carries over to a term from the powers it is built from. -/
theorem carry_normal {q : Place} {fs gs : List (Factor (Node α))}
    (above : ∀ f ∈ fs, Q p (.power f)) (below : ∀ f ∈ gs, Q p (.power f)) (n d : α) :
    Q q (.product (normal n d fs gs)) := by
  have loose : ∀ {f : Factor (Node α)}, Q p (.power f) → Q .alone (.power f) := by
    intro f hf
    cases p with
    | alone => exact hf
    | inside => exact CarriesOver.anywhere hf
  have waiting : ∀ f ∈ fs.map (·, true) ++ gs.map (·, false), Q .alone (.power f.1) := by
    rw [List.forall_mem_append, List.forall_mem_map, List.forall_mem_map]
    exact ⟨fun f hf => loose (above f hf), fun f hf => loose (below f hf)⟩
  have start : (⟨n, d, [], []⟩ : Term α (Node α)).AllOver (Inside Q) :=
    ⟨List.forall_mem_nil _, List.forall_mem_nil _⟩
  obtain ⟨upper, lower⟩ := (start.gather waiting).settled
  exact CarriesOver.product upper.each lower.each

theorem carry_ofNodes {q : Place} {ms ns : List (Node α)} (above : ∀ m ∈ ms, Q p m)
    (below : ∀ n ∈ ns, Q p n) (n d : α) : Q q (.product (ofNodes n d ms ns)) := by
  refine carry_normal (p := p) ?_ ?_ n d
  · rw [List.forall_mem_map]
    exact fun m hm => Node.carry_asFactor (above m hm)
  · rw [List.forall_mem_map]
    exact fun n hn => Node.carry_asFactor (below n hn)

theorem carry_ofValue (x : α) : Q p (.product (ofValue x)) :=
  carry_normal (p := .inside) (List.forall_mem_nil _) (List.forall_mem_nil _) x 1

theorem carry_wrap {q : Place} {n : Node α} (h : Q p n) : Q q (.product (wrap n)) := by
  unfold wrap
  split
  · exact CarriesOver.moved nofun h
  · exact CarriesOver.anywhere (CarriesOver.terms h _ List.mem_cons_self)
  · exact carry_normal (List.forall_mem_singleton.2 (Node.carry_asFactor h)) (List.forall_mem_nil _)
      1 1

theorem carry_fraction {q : Place} {m n : Node α} (above : Q p m) (below : Q p n) :
    Q q (.product (fraction m n)) :=
  carry_ofNodes (List.forall_mem_singleton.2 above) (List.forall_mem_singleton.2 below) 1 1

theorem carry_times {q : Place} {t u : Term α (Node α)} (ht : Q p (.product t))
    (hu : Q p (.product u)) : Q q (.product (t.times u)) := by
  obtain ⟨upper, lower⟩ := CarriesOver.factors ht
  obtain ⟨upper', lower'⟩ := CarriesOver.factors hu
  exact carry_normal (List.forall_mem_append.2 ⟨upper, upper'⟩)
    (List.forall_mem_append.2 ⟨lower, lower'⟩) _ _

end Term

namespace Node

/-! ### Sums -/

theorem carry_soleSum? {t : Term α (Node α)} (h : Q p (.product t)) {ts : List (Term α (Node α))}
    (sole : t.soleSum? = some ts) : Q .inside (.sum ts) := by
  obtain ⟨-, e, -, above, -⟩ := Term.soleSum?_eq_some.1 sole
  have factor : Q .inside (.power ⟨.sum ts, e⟩) := by
    apply (CarriesOver.factors h).1
    rw [above]
    exact List.mem_cons_self
  exact (CarriesOver.power.1 factor).1

theorem carry_summands {n : Node α} (h : Q p n) : ∀ t ∈ n.summands, Q .inside (.product t) := by
  unfold summands
  split
  · exact CarriesOver.terms h
  · have wrapped : Q .inside (.product (Term.wrap n)) := Term.carry_wrap h
    dsimp only
    cases sole : (Term.wrap n).soleSum? with
    | some ts => exact CarriesOver.terms (carry_soleSum? wrapped sole)
    | none => exact List.forall_mem_singleton.2 wrapped

end Node

end Parts

namespace Node

variable [CarriesToSums Q]

/-- The property carries over from the summands to their sum. -/
theorem carry_flattened {q : Place} {nodes : List (Node α)} (h : ∀ n ∈ nodes, Q p n) :
    Q q (.sum (flattened nodes)) := by
  refine CarriesToSums.sum h fun t ht => ?_
  rcases mem_flattened ht with ⟨-, rfl⟩ | ⟨⟨n, hn, member⟩, -⟩
  · exact Term.carry_ofValue 0
  · exact carry_summands (h n hn) t member

theorem carry_flattenedTerms {q : Place} {ts : List (Term α (Node α))}
    (h : ∀ t ∈ ts, Q p (.product t)) : Q q (.sum (flattenedTerms ts)) := by
  refine carry_flattened (p := p) ?_
  rw [List.forall_mem_map]
  exact h

/-! ### Rebuilding -/

omit [CarriesToSums Q] in
theorem carry_cloneFactors {fs : List (Factor (Node α))}
    (each : ∀ f ∈ realFactors fs, Q p (Node.power f).clone) :
    ∀ f ∈ cloneFactors fs, Q p (.power f) := by
  rw [cloneFactors_eq, List.forall_mem_map]
  intro f hf
  have rebuilt := each f hf
  rw [clone] at rebuilt
  exact rebuilt

/-- The property carries over to the rebuilt expression. -/
theorem carry_clone {n : Node α} (h : Q p n) : Q p n.clone := by
  induction n using Node.induction generalizing p with
  | number x => exact h
  | constant c negative => exact h
  | var v negative => exact h
  | power f base exponent =>
    obtain ⟨upper, lower⟩ := CarriesOver.power.1 h
    rw [clone]
    refine CarriesOver.mkPower (base upper) ?_
    refine CarriesOver.rewritten lower (exponent (CarriesOver.exponent lower)) fun x number => ?_
    rw [number, clone]
    all_goals exact nofun
  | product t above below =>
    obtain ⟨upper, lower⟩ := CarriesOver.factors h
    rw [clone]
    refine Term.carry_normal (p := .inside) (carry_cloneFactors ?_) (carry_cloneFactors ?_) _ _
    · exact fun f hf => above f (List.mem_filter.1 hf).1 (upper f hf)
    · exact fun f hf => below f (List.mem_filter.1 hf).1 (lower f hf)
  | sum ts each =>
    rw [clone, cloneTerms_eq]
    refine carry_flattenedTerms (p := .inside) ?_
    rw [List.forall_mem_map]
    intro t ht
    have rebuilt := each t ht (CarriesOver.terms h t ht)
    rw [clone] at rebuilt
    exact rebuilt
  | unary f x ih =>
    rw [clone]
    exact CarriesOver.unary.2 (ih (CarriesOver.unary.1 h))
  | binary f x y left right =>
    obtain ⟨first, second⟩ := CarriesOver.binary.1 h
    rw [clone]
    exact CarriesOver.binary.2 ⟨left first, right second⟩

/-! ### Reducing -/

theorem carry_raised {base exponent : Node α} (hb : Q p base)
    (he : Place.Exponent Q p exponent) : Q p (.power (Factor.raised base exponent)) := by
  cases base with
  | power f => exact CarriesOver.merged hb he
  | _ => exact CarriesOver.mkPower (CarriesOver.moved nofun hb) he

section Reducing

variable {reduce : Node α → Node α} (inner : ∀ {p n}, Q p n → Q p (reduce n))
  (fixed : ∀ x, reduce (.number x) = .number x)

include inner fixed

theorem carry_reduceFactor {f : Factor (Node α)} (h : Q p (.power f)) :
    Q p (reduceFactor reduce f) := by
  obtain ⟨base, exponent⟩ := CarriesOver.power.1 h
  have base : Q p (reduce f.base) := CarriesOver.anywhere (inner base)
  have exponent : Place.Exponent Q p (reduce f.exponent) :=
    CarriesOver.rewritten exponent (inner (CarriesOver.exponent exponent)) fun x number => by
      rw [number, fixed]
  unfold reduceFactor
  dsimp only
  split
  · rename_i x shown
    rw [shown] at exponent
    split
    · exact CarriesOver.number 1
    · split
      · exact base
      · exact carry_raised base exponent
  · exact carry_raised base exponent

theorem carry_reduceTerm {q : Place} {t : Term α (Node α)} (h : Q p (.product t)) :
    Q q (reduceTerm reduce t) := by
  obtain ⟨upper, lower⟩ := CarriesOver.factors h
  have parts : Q q (.product (Term.ofNodes t.numerator t.denominator
      (t.realFactors.map (reduceFactor reduce)) (t.realDivisors.map (reduceFactor reduce)))) := by
    refine Term.carry_ofNodes (p := .inside) ?_ ?_ _ _
    · rw [List.forall_mem_map]
      exact fun f hf => carry_reduceFactor inner fixed (upper f hf)
    · rw [List.forall_mem_map]
      exact fun f hf => carry_reduceFactor inner fixed (lower f hf)
  unfold reduceTerm
  dsimp only
  generalize Term.ofNodes t.numerator t.denominator (t.realFactors.map (reduceFactor reduce))
    (t.realDivisors.map (reduceFactor reduce)) = reduced at parts ⊢
  split
  · exact CarriesOver.number 0
  · split
    · split
      · exact carry_ofValue _
      · rename_i f single
        have factor : Q .inside (.power f) := by
          apply (CarriesOver.factors parts).1
          rw [single]
          exact List.mem_cons_self
        have only : Q q (reduceFactor reduce f) :=
          CarriesOver.anywhere (carry_reduceFactor inner fixed factor)
        split
        · exact only
        · split
          · split
            · rename_i v negative shown
              rw [shown] at only
              exact CarriesOver.var only _
            · rename_i c negative shown
              rw [shown] at only
              exact CarriesOver.constant only _
            · exact parts
          · exact parts
      · exact parts
    · exact parts

end Reducing

omit [CarriesToSums Q] in
theorem reduceAt_number (height : Nat) (x : α) : reduceAt height (.number x) = .number x := by
  cases height <;> rfl

theorem carry_reduceAt {height : Nat} {n : Node α} (h : Q p n) : Q p (reduceAt height n) := by
  induction height generalizing p n with
  | zero => exact h
  | succ height ih =>
    have fixed := reduceAt_number (α := α) height
    unfold reduceAt
    split
    · exact carry_reduceFactor ih fixed h
    · exact carry_reduceTerm ih fixed h
    · exact carry_reduceTerm ih fixed (CarriesOver.terms h _ List.mem_cons_self)
    · refine carry_flattened (p := .inside) ?_
      rw [List.forall_mem_map]
      exact fun t ht => carry_reduceTerm ih fixed (CarriesOver.terms h t ht)
    · exact CarriesOver.unary.2 (ih (CarriesOver.unary.1 h))
    · exact CarriesOver.binary.2 ⟨ih (CarriesOver.binary.1 h).1, ih (CarriesOver.binary.1 h).2⟩
    · exact h

/-- The property carries over to the reduced expression. -/
theorem carry_reduce {n : Node α} (h : Q p n) : Q p n.reduce := carry_reduceAt h

end Node

end SymbolicAlgebra
