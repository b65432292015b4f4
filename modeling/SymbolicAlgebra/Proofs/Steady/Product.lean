/-
  One pass over a product
  =======================
  Simplifying a term adds the exponents of equal bases, first on either side of the bar
  and then across it. A sum of exponents can be anything, so an equal base is *plain*
  when it makes no difference what the sum is: the exponents are numbers, and the base
  stays a base under any number or goes into the coefficient (`Factor.Plain`). A factor
  that meets no equal base keeps its exponent, and it is enough that its base stays one
  under this exponent (`Factor.Stays`).

  If only plain factors meet (`Factor.Ready`), all that collecting and cancelling leave
  continues the factors that were there (`Factor.Continues`), with every base once:
  **`Node.collect_ready`**, **`Node.cancel_ready`**. The term built of them is steady after
  this one pass: **`Term.pass_spec`**.
-/
import SymbolicAlgebra.Proofs.Steady.Term

namespace SymbolicAlgebra

variable {α : Type} [FieldScalar α]

namespace Factor

/-- A number as exponent, over a number or over a base that stays one under every number. -/
structure Plain (f : Factor (Node α)) : Prop where
  exponent : ∃ x, f.exponent = .number x
  base : f.base.isNumber = true ∨ f.base.Firm

/-- The base stays one under this exponent, on the side of the bar where it is positive. -/
structure Stays (f : Factor (Node α)) : Prop where
  real : f.exponent.isZero = false
  number : ∀ x, f.exponent = .number x → f.base.keeps (if Scalar.lt x 0 then -x else x) = true

/-- Equal bases meet in plain factors only. -/
def Mixes (f g : Factor (Node α)) : Prop :=
  f.base.sameSigned g.base = true → f.Plain ∧ g.Plain

/-- Factors that can be collected and cancelled in any way. -/
structure Ready (fs : List (Factor (Node α))) : Prop where
  each : ∀ f ∈ fs, f.Plain ∨ f.Stays
  meets : fs.Pairwise Mixes

/-- The factor itself, or the plain one it was with another number as exponent. -/
def Continues (k f : Factor (Node α)) : Prop :=
  k = f ∨ (f.Plain ∧ ∃ x, k = ⟨f.base, .number x⟩)

variable {f g h k : Factor (Node α)}

theorem apart_of_not (differ : ¬ f.base.sameSigned g.base = true) : f.Apart g := by
  simpa [Apart] using differ

theorem Apart.congr {f' g' : Factor (Node α)} (a : f.Apart g) (left : f'.base = f.base)
    (right : g'.base = g.base) : f'.Apart g' := by
  rw [Apart, left, right]
  exact a

namespace Continues

theorem refl (f : Factor (Node α)) : f.Continues f := .inl rfl

theorem base_eq (c : k.Continues f) : k.base = f.base := by
  rcases c with rfl | ⟨-, x, rfl⟩
  · rfl
  · rfl

theorem plain (c : k.Continues f) (p : f.Plain) : k.Plain := by
  rcases c with rfl | ⟨-, x, rfl⟩
  · exact p
  · exact ⟨⟨x, rfl⟩, p.base⟩

theorem trans (c : h.Continues k) (d : k.Continues f) : h.Continues f := by
  rcases c with rfl | ⟨p, x, rfl⟩
  · exact d
  · rcases d with rfl | ⟨q, y, rfl⟩
    · exact .inr ⟨p, x, rfl⟩
    · exact .inr ⟨q, x, rfl⟩

theorem mixes (c : k.Continues f) (d : h.Continues g) (m : f.Mixes g) : k.Mixes h := by
  intro same
  rw [c.base_eq, d.base_eq] at same
  obtain ⟨p, q⟩ := m same
  exact ⟨c.plain p, d.plain q⟩

theorem fit (c : k.Continues f) (fit : f.Plain ∨ f.Stays) : k.Plain ∨ k.Stays := by
  rcases c with rfl | ⟨p, x, rfl⟩
  · exact fit
  · exact .inl ⟨⟨x, rfl⟩, p.base⟩

theorem steady (c : k.Continues f) (parts : f.base.Steady ∧ f.exponent.Steady) :
    k.base.Steady ∧ k.exponent.Steady := by
  rcases c with rfl | ⟨-, x, rfl⟩
  · exact parts
  · exact ⟨parts.1, .number x⟩

end Continues

end Factor

namespace Node

/-! ### Collecting -/

variable {f : Factor (Node α)} {fs gs : List (Factor (Node α))}

theorem add_numbers_eq (level : Nat) (x y : α) :
    (exponentRules level).add (.number x) (.number y) = .ok (.number (x + y)) := by
  have added : (exponentRules level).add (.number x) (.number y) = .ok (ofValue (x + y)) := by
    cases level <;> rfl
  rw [added, FieldScalar.ofValue_eq]

/-- A factor collected with factors that have different bases. -/
theorem collectOne_ready (apart : gs.Pairwise Factor.Apart) (meets : ∀ g ∈ gs, g.Mixes f) :
    ∃ ks, (∀ level, collectOne (exponentRules level) f gs = .ok ks) ∧
      ks.Pairwise Factor.Apart ∧ ∀ k ∈ ks, ∃ h ∈ f :: gs, k.Continues h := by
  induction gs with
  | nil =>
    refine ⟨[f], fun _ => rfl, List.pairwise_singleton _ _, ?_⟩
    intro k hk
    exact ⟨k, hk, .refl k⟩
  | cons g gs ih =>
    obtain ⟨first, later⟩ := List.pairwise_cons.1 apart
    obtain ⟨meet, others⟩ := List.forall_mem_cons.1 meets
    by_cases same : g.base.sameSigned f.base = true
    · obtain ⟨plain, plain'⟩ := meet same
      obtain ⟨x, left⟩ := plain.exponent
      obtain ⟨y, right⟩ := plain'.exponent
      refine ⟨⟨g.base, .number (x + y)⟩ :: gs, ?_, ?_, ?_⟩
      · intro level
        rw [collectOne, if_pos same, left, right, add_numbers_eq]
        rfl
      · exact List.pairwise_cons.2 ⟨first, later⟩
      · intro k hk
        rcases List.mem_cons.1 hk with rfl | hk
        · exact ⟨g, by simp, .inr ⟨plain, x + y, rfl⟩⟩
        · exact ⟨k, by simp [hk], .refl k⟩
    · obtain ⟨ks, collected, separate, continued⟩ := ih later others
      refine ⟨g :: ks, ?_, List.pairwise_cons.2 ⟨?_, separate⟩, ?_⟩
      · intro level
        rw [collectOne, if_neg same, collected]
        rfl
      · intro k hk
        obtain ⟨h, member, continues⟩ := continued k hk
        rcases List.mem_cons.1 member with rfl | member
        · exact (Factor.apart_of_not same).congr rfl continues.base_eq
        · exact (first h member).congr rfl continues.base_eq
      · intro k hk
        rcases List.mem_cons.1 hk with rfl | hk
        · exact ⟨k, by simp, .refl k⟩
        · obtain ⟨h, member, continues⟩ := continued k hk
          rcases List.mem_cons.1 member with rfl | member
          · exact ⟨h, by simp, continues⟩
          · exact ⟨h, by simp [member], continues⟩

/-- Collecting leaves every base once and continues the factors. -/
theorem collect_ready (meets : fs.Pairwise Factor.Mixes) :
    ∃ ks, (∀ level, collect (exponentRules level) fs = .ok ks) ∧
      ks.Pairwise Factor.Apart ∧ ∀ k ∈ ks, ∃ f ∈ fs, k.Continues f := by
  have folded : ∀ fs gs : List (Factor (Node α)), fs.Pairwise Factor.Mixes →
      gs.Pairwise Factor.Apart → (∀ g ∈ gs, ∀ f ∈ fs, g.Mixes f) →
      ∃ ks, (∀ level, fs.foldlM (fun grouped f => collectOne (exponentRules level) f grouped) gs =
        .ok ks) ∧ ks.Pairwise Factor.Apart ∧ ∀ k ∈ ks, ∃ f ∈ gs ++ fs, k.Continues f := by
    intro fs
    induction fs with
    | nil =>
      intro gs _ apart _
      exact ⟨gs, fun _ => rfl, apart, fun k hk => ⟨k, by simpa using hk, .refl k⟩⟩
    | cons f fs ih =>
      intro gs meets apart across
      obtain ⟨first, later⟩ := List.pairwise_cons.1 meets
      obtain ⟨ks, collected, separate, continued⟩ :=
        collectOne_ready apart fun g hg => across g hg f List.mem_cons_self
      have next : ∀ k ∈ ks, ∀ h ∈ fs, k.Mixes h := by
        intro k hk h hh
        obtain ⟨g, member, continues⟩ := continued k hk
        apply continues.mixes (.refl h)
        rcases List.mem_cons.1 member with rfl | member
        · exact first h hh
        · exact across g member h (List.mem_cons_of_mem f hh)
      obtain ⟨ms, rest, distinct, all⟩ := ih ks later separate next
      refine ⟨ms, ?_, distinct, ?_⟩
      · intro level
        rw [List.foldlM_cons, collected]
        exact rest level
      · intro m hm
        obtain ⟨k, member, continues⟩ := all m hm
        rcases List.mem_append.1 member with member | member
        · obtain ⟨g, source, origin⟩ := continued k member
          refine ⟨g, ?_, continues.trans origin⟩
          rcases List.mem_cons.1 source with rfl | source
          · simp
          · simp [source]
        · exact ⟨k, by simp [member], continues⟩
  exact folded fs [] meets .nil fun g hg => by cases hg

/-! ### Cancelling -/

/-- What cancelling a factor against divisors with different bases leaves. -/
theorem cancelOne_ready (apart : gs.Pairwise Factor.Apart) (meets : ∀ g ∈ gs, f.Mixes g) :
    (∀ k ∈ (cancelOne f gs).1.toList, k.Continues f ∧ ∀ h ∈ (cancelOne f gs).2, k.Apart h) ∧
      (cancelOne f gs).2.Pairwise Factor.Apart ∧
        ∀ h ∈ (cancelOne f gs).2, ∃ g ∈ gs, h.Continues g := by
  induction gs with
  | nil =>
    refine ⟨?_, .nil, fun h hh => by cases hh⟩
    intro k hk
    obtain rfl := List.mem_singleton.1 hk
    exact ⟨.refl k, fun h hh => by cases hh⟩
  | cons g gs ih =>
    obtain ⟨first, later⟩ := List.pairwise_cons.1 apart
    obtain ⟨meet, others⟩ := List.forall_mem_cons.1 meets
    rw [cancelOne]
    split
    · rename_i same
      obtain ⟨plain, plain'⟩ := meet (sameSigned_symm same)
      obtain ⟨x, left⟩ := plain.exponent
      obtain ⟨y, right⟩ := plain'.exponent
      rw [left, right]
      have rest : ∀ h ∈ gs, ∃ g' ∈ g :: gs, h.Continues g' :=
        fun h hh => ⟨h, List.mem_cons_of_mem g hh, .refl h⟩
      dsimp only
      split
      · refine ⟨?_, later, rest⟩
        intro k hk
        obtain rfl := List.mem_singleton.1 hk
        rw [FieldScalar.ofValue_eq]
        refine ⟨.inr ⟨plain, x - y, rfl⟩, ?_⟩
        intro h hh
        -- the base of the factor is that of the divisor, which meets no other
        by_contra equal
        have joined := sameSigned_trans same (by simpa [Factor.Apart] using equal)
        have separate := first h hh
        rw [Factor.Apart, joined] at separate
        cases separate
      · split
        · refine ⟨(fun k hk => by cases hk), ?_, ?_⟩
          · exact List.pairwise_cons.2 ⟨first, later⟩
          · intro h hh
            rw [FieldScalar.ofValue_eq] at hh
            rcases List.mem_cons.1 hh with rfl | hh
            · exact ⟨g, List.mem_cons_self, .inr ⟨plain', y - x, rfl⟩⟩
            · exact rest h hh
        · exact ⟨(fun k hk => by cases hk), later, rest⟩
    · rename_i differ
      obtain ⟨kept, separate, continued⟩ := ih later others
      refine ⟨?_, ?_, ?_⟩
      · intro k hk
        obtain ⟨continues, away⟩ := kept k hk
        refine ⟨continues, List.forall_mem_cons.2 ⟨?_, away⟩⟩
        exact (Factor.apart_of_not differ).symm.congr continues.base_eq rfl
      · refine List.pairwise_cons.2 ⟨?_, separate⟩
        intro h hh
        obtain ⟨g', member, continues⟩ := continued h hh
        exact (first g' member).congr rfl continues.base_eq
      · intro h hh
        rcases List.mem_cons.1 hh with rfl | hh
        · exact ⟨h, List.mem_cons_self, .refl h⟩
        · obtain ⟨g', member, continues⟩ := continued h hh
          exact ⟨g', List.mem_cons_of_mem g member, continues⟩

/-- Cancelling leaves every base once, on either side of the bar. -/
theorem cancel_ready (apart : fs.Pairwise Factor.Apart) (apart' : gs.Pairwise Factor.Apart)
    (meets : ∀ f ∈ fs, ∀ g ∈ gs, f.Mixes g) :
    ((cancel fs gs).1 ++ (cancel fs gs).2).Pairwise Factor.Apart ∧
      (∀ k ∈ (cancel fs gs).1, ∃ f ∈ fs, k.Continues f) ∧
        ∀ h ∈ (cancel fs gs).2, ∃ g ∈ gs, h.Continues g := by
  induction fs generalizing gs with
  | nil => exact ⟨apart', (fun k hk => by cases hk), fun h hh => ⟨h, hh, .refl h⟩⟩
  | cons f fs ih =>
    obtain ⟨first, later⟩ := List.pairwise_cons.1 apart
    obtain ⟨meet, others⟩ := List.forall_mem_cons.1 meets
    obtain ⟨kept, separate, left⟩ := cancelOne_ready apart' meet
    have next : ∀ f' ∈ fs, ∀ h ∈ (cancelOne f gs).2, f'.Mixes h := by
      intro f' hf' h hh
      obtain ⟨g, member, continues⟩ := left h hh
      exact (Factor.Continues.refl f').mixes continues (others f' hf' g member)
    obtain ⟨distinct, above, below⟩ := ih later separate next
    rw [cancel]
    dsimp only
    refine ⟨?_, ?_, ?_⟩
    · rw [List.append_assoc]
      refine List.pairwise_append.2 ⟨?_, distinct, ?_⟩
      · cases (cancelOne f gs).1 with
        | none => exact .nil
        | some k => exact List.pairwise_singleton _ _
      · intro k hk h hh
        obtain ⟨continues, away⟩ := kept k hk
        rcases List.mem_append.1 hh with hh | hh
        · obtain ⟨f', member, origin⟩ := above h hh
          exact (first f' member).congr continues.base_eq origin.base_eq
        · obtain ⟨g, member, origin⟩ := below h hh
          exact (away g member).congr rfl origin.base_eq
    · intro k hk
      rcases List.mem_append.1 hk with hk | hk
      · exact ⟨f, List.mem_cons_self, (kept k hk).1⟩
      · obtain ⟨f', member, continues⟩ := above k hk
        exact ⟨f', List.mem_cons_of_mem f member, continues⟩
    · intro h hh
      obtain ⟨g, member, continues⟩ := below h hh
      obtain ⟨g', source, origin⟩ := left g member
      exact ⟨g', source, continues.trans origin⟩

end Node

/-! ### Building -/

namespace Term

variable [ExactScalar α] [SteadyScalar α]

/-- The factors of a term so far and those that wait: the former last and are steady in their
parts, the latter fit, and no two have the same base. -/
structure Gathering (t : Term α (Node α)) (pending : List (Factor (Node α) × Bool)) : Prop where
  lasting : ∀ f ∈ t.factors ++ t.divisors, f.Lasts ∧ f.base.Steady ∧ f.exponent.Steady
  waiting : ∀ p ∈ pending, (p.1.Plain ∨ p.1.Stays) ∧ p.1.base.Steady ∧ p.1.exponent.Steady
  apart : (t.factors ++ t.divisors ++ pending.map Prod.fst).Pairwise Factor.Apart

omit [ExactScalar α] [SteadyScalar α] in
theorem scale_parts (t : Term α (Node α)) (above : Bool) (x : α) :
    (t.scale above x).factors = t.factors ∧ (t.scale above x).divisors = t.divisors := by
  cases above <;> exact ⟨rfl, rfl⟩

omit [ExactScalar α] [SteadyScalar α] in
/-- A number as exponent is made positive by choosing the side of the bar. -/
theorem absorb_number (t : Term α (Node α)) (above : Bool) (b : Node α) (x : α) :
    t.absorb above ⟨b, .number x⟩ =
      t.multiplyBy (if Scalar.lt x 0 then !above else above)
        ⟨b, .number (if Scalar.lt x 0 then -x else x)⟩ := by
  rw [absorb]
  dsimp only
  split <;> simp

/-- Multiplying by a fitting factor scales the term, or adds a lasting factor with its base. -/
theorem absorb_cases {f : Factor (Node α)} (fits : f.Plain ∨ f.Stays)
    (steady : f.exponent.Steady) (real : f.exponent.isZero = false) (t : Term α (Node α))
    (above : Bool) :
    ((t.absorb above f).factors = t.factors ∧ (t.absorb above f).divisors = t.divisors) ∨
      ∃ side e, Factor.Lasts ⟨f.base, e⟩ ∧ e.Steady ∧
        t.absorb above f = t.push side ⟨f.base, e⟩ := by
  obtain ⟨base, exponent⟩ := f
  cases number : exponent.isNumber with
  | true =>
    obtain ⟨x, rfl⟩ : ∃ x, exponent = .number x := by
      cases exponent with
      | number x => exact ⟨x, rfl⟩
      | _ => cases number
    rw [absorb_number]
    cases plain : base.isNumber with
    | true =>
      left
      cases base with
      | number b => exact scale_parts t _ _
      | _ => cases plain
    | false =>
      right
      have kept : base.keeps (if Scalar.lt x 0 then -x else x) = true := by
        rcases fits with ⟨-, firm⟩ | stays
        · rcases firm with digits | firm
          · rw [plain] at digits
            cases digits
          · exact firm _
        · exact stays.number x rfl
      have lasts : Factor.Lasts ⟨base, .number (if Scalar.lt x 0 then -x else x)⟩ := by
        constructor
        · have nonzero : (x == 0) = false := real
          rw [beq_eq_false_iff_ne] at nonzero
          show ((if Scalar.lt x 0 then -x else x) == 0) = false
          rw [beq_eq_false_iff_ne]
          split
          · exact neg_ne_zero.2 nonzero
          · exact nonzero
        · rintro y same
          cases same
          refine ⟨?_, kept⟩
          split
          · rename_i negative
            exact SteadyScalar.lt_neg x negative
          · rename_i positive
            simpa using positive
      exact ⟨_, _, lasts, .number _, lasts.multiplyBy_eq t _⟩
  | false =>
    right
    have lasts : Factor.Lasts ⟨base, exponent⟩ := by
      refine ⟨real, ?_⟩
      rintro x rfl
      cases number
    refine ⟨above, exponent, lasts, steady, ?_⟩
    rw [absorb, ← lasts.multiplyBy_eq]
    cases exponent with
    | number x => cases number
    | _ => rfl

omit [ExactScalar α] [SteadyScalar α] in
/-- What waits under the exponent zero is left out. -/
theorem gather_zero {f : Factor (Node α)} (zero : f.exponent.isZero = true) (above : Bool)
    (rest : List (Factor (Node α) × Bool)) (t : Term α (Node α)) :
    gather ((f, above) :: rest) t = gather rest t := by
  conv_lhs => unfold gather
  rw [if_pos zero]

/-- One waiting factor is taken into the term. -/
theorem Gathering.step {t : Term α (Node α)} {f : Factor (Node α)} {above : Bool}
    {rest : List (Factor (Node α) × Bool)} (h : t.Gathering ((f, above) :: rest)) :
    ∃ u : Term α (Node α), gather ((f, above) :: rest) t = gather rest u ∧ u.Gathering rest := by
  obtain ⟨⟨fits, base, exponent⟩, later⟩ := List.forall_mem_cons.1 h.waiting
  have apart := h.apart
  rw [List.map_cons] at apart
  obtain ⟨first, others⟩ :=
    List.pairwise_cons.1 ((List.pairwise_middle Factor.Apart.symm).1 apart)
  cases zero : f.exponent.isZero with
  | true => exact ⟨t, gather_zero zero above rest t, h.lasting, later, others⟩
  | false =>
    have whole : f.exponent.isUnit = true → f.base.isSpliced = false := by
      intro unit
      have one := Node.eq_number_of_isUnit unit
      rcases fits with ⟨-, digits | firm⟩ | stays
      · cases number : f.base with
        | number b => rfl
        | _ => rw [number] at digits; cases digits
      · exact Node.isSpliced_of_keeps (firm 1)
      · have kept := stays.number 1 one
        rw [ExactScalar.one_lt_zero, if_neg (by simp)] at kept
        exact Node.isSpliced_of_keeps kept
    refine ⟨t.absorb above f, gather_absorb zero whole above rest t, ?_⟩
    rcases absorb_cases fits exponent zero t above with ⟨factors, divisors⟩ | ⟨side, e, lasts, steady, pushed⟩
    · exact ⟨by rw [factors, divisors]; exact h.lasting, later, by rw [factors, divisors]; exact others⟩
    · have members : ((t.push side ⟨f.base, e⟩).factors ++ (t.push side ⟨f.base, e⟩).divisors).Perm
          ((⟨f.base, e⟩ : Factor (Node α)) :: (t.factors ++ t.divisors)) := by
        cases side with
        | true =>
          rw [push, if_pos rfl, List.append_assoc]
          exact List.perm_middle
        | false =>
          rw [push, if_neg (by simp), ← List.append_assoc]
          exact List.perm_append_singleton _ _
      rw [pushed]
      refine ⟨?_, later, ?_⟩
      · intro k hk
        rcases List.mem_cons.1 (members.mem_iff.1 hk) with rfl | hk
        · exact ⟨lasts, base, steady⟩
        · exact h.lasting k hk
      · apply ((members.append_right _).pairwise_iff Factor.Apart.symm).2
        refine List.pairwise_cons.2 ⟨?_, others⟩
        intro k hk
        exact (first k hk).congr rfl rfl

/-- Gathering ends in a term of lasting factors with different bases. -/
theorem Gathering.gather {t : Term α (Node α)} {pending : List (Factor (Node α) × Bool)}
    (h : t.Gathering pending) : (gather pending t).Gathering [] := by
  induction pending generalizing t with
  | nil =>
    rw [Term.gather]
    exact h
  | cons p rest ih =>
    obtain ⟨u, same, next⟩ := h.step
    rw [same]
    exact ih next

/-- A term built of fitting factors with different bases has steady factors with different
bases. -/
theorem normal_ready {fs gs : List (Factor (Node α))}
    (fit : ∀ f ∈ fs ++ gs, (f.Plain ∨ f.Stays) ∧ f.base.Steady ∧ f.exponent.Steady)
    (apart : (fs ++ gs).Pairwise Factor.Apart) (n d : α) :
    (∀ f ∈ (normal n d fs gs).realFactors ++ (normal n d fs gs).realDivisors, f.Steady) ∧
      ((normal n d fs gs).realFactors ++ (normal n d fs gs).realDivisors).Pairwise Factor.Apart ∧
        Scalar.lt (normal n d fs gs).denominator 0 = false := by
  have start : Gathering ⟨n, d, [], []⟩ (fs.map (·, true) ++ gs.map (·, false)) := by
    refine ⟨(fun f hf => by cases hf), ?_, ?_⟩
    · intro p hp
      rcases List.mem_append.1 hp with hp | hp
      · obtain ⟨f, hf, rfl⟩ := List.mem_map.1 hp
        exact fit f (List.mem_append_left gs hf)
      · obtain ⟨g, hg, rfl⟩ := List.mem_map.1 hp
        exact fit g (List.mem_append_right fs hg)
    · have same : (fs.map (·, true) ++ gs.map (·, false)).map Prod.fst = fs ++ gs := by
        simp [Function.comp_def]
      rw [same]
      exact apart
  have gathered := start.gather
  refine ⟨?_, ?_, settled_denominator _⟩
  · intro f hf
    rw [normal, (settled_real _).1, (settled_real _).2] at hf
    have real : f.isOne = false ∧ f ∈ (Term.gather (fs.map (·, true) ++ gs.map (·, false))
        ⟨n, d, [], []⟩).factors ++ (Term.gather (fs.map (·, true) ++ gs.map (·, false))
          ⟨n, d, [], []⟩).divisors := by
      rcases List.mem_append.1 hf with hf | hf
      · obtain ⟨member, real⟩ := List.mem_filter.1 hf
        exact ⟨by simpa using real, List.mem_append_left _ member⟩
      · obtain ⟨member, real⟩ := List.mem_filter.1 hf
        exact ⟨by simpa using real, List.mem_append_right _ member⟩
    obtain ⟨lasts, base, exponent⟩ := gathered.lasting f real.2
    exact ⟨base, exponent, real.1, lasts⟩
  · rw [normal, (settled_real _).1, (settled_real _).2]
    have all := gathered.apart
    rw [List.map_nil, List.append_nil] at all
    exact all.sublist (List.filter_sublist.append List.filter_sublist)

/-- One pass makes a term steady, or zero, if its simplified factors are ready. -/
theorem pass_spec {t : Term α (Node α)} {fs gs : List (Factor (Node α))}
    (ready : Factor.Ready (fs ++ gs))
    (steady : ∀ f ∈ fs ++ gs, f.base.Steady ∧ f.exponent.Steady) :
    ∃ u, (u = zero ∨ u.Steady) ∧ ∀ level depth,
      t.realFactors.mapM (Node.simplifyFactor (Node.exponentRules level)
        (Node.simplifyAt (Node.exponentRules level) depth)) = .ok fs →
      t.realDivisors.mapM (Node.simplifyFactor (Node.exponentRules level)
        (Node.simplifyAt (Node.exponentRules level) depth)) = .ok gs →
      t.pass level depth = .ok u := by
  obtain ⟨left, right, across⟩ := List.pairwise_append.1 ready.meets
  obtain ⟨above, collected, apart, continued⟩ := Node.collect_ready left
  obtain ⟨below, collected', apart', continued'⟩ := Node.collect_ready right
  have meets : ∀ k ∈ above, ∀ h ∈ below, k.Mixes h := by
    intro k hk h hh
    obtain ⟨f, hf, origin⟩ := continued k hk
    obtain ⟨g, hg, origin'⟩ := continued' h hh
    exact origin.mixes origin' (across f hf g hg)
  obtain ⟨separate, kept, kept'⟩ := Node.cancel_ready apart apart' meets
  have fit : ∀ k ∈ (Node.cancel above below).1 ++ (Node.cancel above below).2,
      (k.Plain ∨ k.Stays) ∧ k.base.Steady ∧ k.exponent.Steady := by
    have origin : ∀ k ∈ (Node.cancel above below).1 ++ (Node.cancel above below).2,
        ∃ f ∈ fs ++ gs, k.Continues f := by
      intro k hk
      rcases List.mem_append.1 hk with hk | hk
      · obtain ⟨h, member, continues⟩ := kept k hk
        obtain ⟨f, source, first⟩ := continued h member
        exact ⟨f, List.mem_append_left gs source, continues.trans first⟩
      · obtain ⟨h, member, continues⟩ := kept' k hk
        obtain ⟨g, source, first⟩ := continued' h member
        exact ⟨g, List.mem_append_right fs source, continues.trans first⟩
    intro k hk
    obtain ⟨f, source, continues⟩ := origin k hk
    exact ⟨continues.fit (ready.each f source), continues.steady (steady f source)⟩
  obtain ⟨factors, different, positive⟩ := normal_ready fit separate t.numerator t.denominator
  obtain ⟨u, lowest, result⟩ := lowest_spec factors different positive
  refine ⟨u, result.imp_right And.left, ?_⟩
  intro level depth simplified simplified'
  unfold pass Node.simplifyTerm
  rw [simplified, simplified']
  simp only [bind, Except.bind, pure, Except.pure]
  rw [collected, collected']
  dsimp only
  rw [Node.tidyExponents_steady fun k hk => (fit k (List.mem_append_left _ hk)).2.2,
    Node.tidyExponents_steady fun k hk => (fit k (List.mem_append_right _ hk)).2.2]
  exact lowest

end Term

end SymbolicAlgebra
