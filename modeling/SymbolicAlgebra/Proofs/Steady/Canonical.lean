/-
  Terms in canonical shape
  ========================
  A term is canonical when building it from its own coefficient and its real factors
  gives it back, each factor being added as it stands. The coefficient and the factors of
  a built term are then those it was built from (`Term.normal_parts`), products of such
  terms are computed part by part (**`Term.times_normal`**), and so are opposite terms.

  A reduced term is the plainest node that stands for it (`Term.plainest`). Taken as a
  term it is what it came from: **`Term.Canonical.wrap_plainest`**.
-/
import SymbolicAlgebra.Proofs.Steady.Factor
import SymbolicAlgebra.Proofs.CarryOver.Property
import SymbolicAlgebra.Node.Arithmetic

namespace SymbolicAlgebra

variable {α : Type} [FieldScalar α]

/-! ### Nodes as terms -/

namespace Term

/-- A single base under the exponent one is absorbed. -/
theorem normal_unit [ExactScalar α] {b : Node α} (whole : b.isSpliced = false) (n d : α) :
    normal n d [⟨b, .number 1⟩] [] = (multiplyBy ⟨n, d, [], []⟩ true ⟨b, .number 1⟩).settled :=
  normal_alone (by simp) ExactScalar.one_lt_zero whole n d

end Term

namespace Factor

variable {f : Factor (Node α)}

/-- A factor that counts in a term, and lasts in it. -/
structure Present (f : Factor (Node α)) : Prop where
  real : f.isOne = false
  lasts : f.Lasts

end Factor

namespace Term

variable {n d c e : α} {fs gs hs ks : List (Factor (Node α))} {t u : Term α (Node α)}

/-! ### The parts of a built term -/

/-- A term built of factors that are present has just these, and its coefficient. -/
theorem normal_parts [ExactScalar α] (present : ∀ f ∈ fs ++ gs, f.Present)
    (positive : Scalar.lt d 0 = false) :
    (normal n d fs gs).numerator = n ∧ (normal n d fs gs).denominator = d ∧
      (normal n d fs gs).realFactors = fs ∧ (normal n d fs gs).realDivisors = gs := by
  obtain ⟨above, below⟩ := List.forall_mem_append.1 present
  obtain ⟨factors, divisors⟩ := normal_of_stable (n := n) (d := d)
    (fun f hf => (above f hf).lasts.stable) fun g hg => (below g hg).lasts.stable
  refine ⟨?_, ?_, ?_, ?_⟩
  · rw [normal_eq_settled (fun f hf => (above f hf).lasts.stable)
      fun g hg => (below g hg).lasts.stable, settled, if_neg (by simp [positive])]
  · rw [normal_eq_settled (fun f hf => (above f hf).lasts.stable)
      fun g hg => (below g hg).lasts.stable, settled, if_neg (by simp [positive])]
  · rw [factors]
    exact List.filter_eq_self.2 fun f hf => by rw [(above f hf).real, Bool.not_false]
  · rw [divisors]
    exact List.filter_eq_self.2 fun g hg => by rw [(below g hg).real, Bool.not_false]

section Products

variable [ExactScalar α]

/-- The product of two built terms is built of the products of their parts. -/
theorem times_normal (left : ∀ f ∈ fs ++ gs, f.Present) (right : ∀ f ∈ hs ++ ks, f.Present)
    (positive : Scalar.lt d 0 = false) (positive' : Scalar.lt e 0 = false) :
    (normal n d fs gs).times (normal c e hs ks) = normal (n * c) (d * e) (fs ++ hs) (gs ++ ks) := by
  obtain ⟨numerator, denominator, factors, divisors⟩ := normal_parts (n := n) left positive
  obtain ⟨numerator', denominator', factors', divisors'⟩ := normal_parts (n := c) right positive'
  rw [times, numerator, denominator, factors, divisors, numerator', denominator', factors',
    divisors']

omit [ExactScalar α] in
theorem none_present : ∀ f ∈ ([] ++ [] : List (Factor (Node α))), f.Present := by
  intro f hf
  cases hf

theorem wrap_number (x : α) : wrap (.number x) = normal x 1 [] [] := by
  rw [wrap_eq rfl, normal_unit rfl]
  unfold multiplyBy scale
  dsimp only
  rw [ExactScalar.power_one, one_mul]
  exact (normal_eq_settled (fun f hf => by cases hf) fun f hf => by cases hf).symm

/-- The term with the opposite sign has the opposite coefficient. -/
theorem negate_normal (present : ∀ f ∈ fs ++ gs, f.Present) (positive : Scalar.lt d 0 = false) :
    (normal n d fs gs).negate = normal (-n) d fs gs := by
  rw [negate, FieldScalar.ofValue_eq, wrap_number,
    times_normal present none_present positive ExactScalar.one_lt_zero, List.append_nil,
    List.append_nil, mul_neg_one, mul_one]

theorem isOdd_one : Scalar.isOdd (1 : α) = true := by
  rw [Scalar.isOdd, ExactScalar.isWhole_one, ExactScalar.toInt_one]
  rfl

/-- A base that stays one under the exponent one. -/
theorem present_base {b : Node α} (plain : b.keeps 1 = true) (other : b.isOne = false) :
    (⟨b, .number 1⟩ : Factor (Node α)).Present where
  real := by
    rw [Factor.isOne, other]
    simp [Node.isZero]
  lasts := by
    constructor
    · simp [Node.isZero]
    · rintro x ⟨⟩
      exact ⟨ExactScalar.one_lt_zero, plain⟩

/-- The sign of a name goes into the coefficient. -/
theorem wrap_var (v : Variable) (negative : Bool) :
    wrap (.var v negative) =
      normal (if negative then -1 else (1 : α)) 1 [⟨.var v false, .number 1⟩] [] := by
  rw [wrap_eq rfl, normal_unit rfl, normal_unit rfl]
  cases negative <;> simp [multiplyBy, isOdd_one]

theorem wrap_constant (c : Constant) (negative : Bool) :
    wrap (.constant c negative) =
      normal (if negative then -1 else (1 : α)) 1 [⟨.constant c false, .number 1⟩] [] := by
  rw [wrap_eq rfl, normal_unit rfl, normal_unit rfl]
  cases negative <;> simp [multiplyBy, isOdd_one]

/-- The term of the opposite node is the opposite term. -/
theorem wrap_negate (m : Node α) : wrap m.negate = (wrap m).negate := by
  have flipped : ∀ negative : Bool,
      (if (!negative) = true then -1 else (1 : α)) = -(if negative = true then -1 else 1) := by
    intro negative
    cases negative <;> simp
  cases m with
  | number x =>
    rw [Node.negate, FieldScalar.ofValue_eq, wrap_number, wrap_number,
      negate_normal none_present ExactScalar.one_lt_zero]
  | constant c negative =>
    have present : ∀ f ∈ [⟨.constant c false, .number 1⟩] ++ ([] : List (Factor (Node α))),
        f.Present := List.forall_mem_singleton.2 (present_base rfl (by simp [Node.isOne]))
    rw [Node.negate, wrap_constant, wrap_constant, negate_normal present ExactScalar.one_lt_zero,
      flipped]
  | var v negative =>
    have present : ∀ f ∈ [⟨.var v false, .number 1⟩] ++ ([] : List (Factor (Node α))),
        f.Present := List.forall_mem_singleton.2 (present_base rfl (by simp [Node.isOne]))
    rw [Node.negate, wrap_var, wrap_var, negate_normal present ExactScalar.one_lt_zero, flipped]
  | _ =>
    rw [negate, FieldScalar.ofValue_eq]
    rfl

end Products

/-! ### Canonical terms -/

/-- The term is built of its own coefficient and real factors, and these last. -/
structure Canonical (t : Term α (Node α)) : Prop where
  rebuilt : normal t.numerator t.denominator t.realFactors t.realDivisors = t
  lasts : ∀ f ∈ t.realFactors ++ t.realDivisors, f.Lasts

/-- The reduced term, given that its bases and exponents are reduced already. -/
def plainest (t : Term α (Node α)) : Node α := Node.reduceTerm (Node.reduceAt 0) t

namespace Canonical

theorem present (h : t.Canonical) : ∀ f ∈ t.realFactors ++ t.realDivisors, f.Present := by
  intro f hf
  refine ⟨?_, h.lasts f hf⟩
  rcases List.mem_append.1 hf with hf | hf
  · simpa using (List.mem_filter.1 hf).2
  · simpa using (List.mem_filter.1 hf).2

/-- Reducing a canonical term of reduced parts asks only for its coefficient and for the number of
its factors. -/
theorem reduceTerm_unfold (h : t.Canonical) (nonzero : t.isZero = false) {reduce : Node α → Node α}
    (fixed : ∀ f ∈ t.realFactors ++ t.realDivisors,
      reduce f.base = f.base ∧ reduce f.exponent = f.exponent) :
    Node.reduceTerm reduce t =
      if t.denominator == 1 && t.realDivisors.isEmpty then
        match t.realFactors with
        | [] => .number t.numerator
        | [f] =>
          if t.numerator == 1 then f.shown
          else if t.numerator == -1 then
            match f.shown with
            | .var v negative => .var v !negative
            | .constant c negative => .constant c !negative
            | _ => .product t
          else .product t
        | _ => .product t
      else .product t := by
  have shown : ∀ f ∈ t.realFactors ++ t.realDivisors, Node.reduceFactor reduce f = f.shown := by
    intro f hf
    obtain ⟨base, exponent⟩ := fixed f hf
    exact (h.lasts f hf).reduceFactor_eq base exponent
  have same : ∀ fs : List (Factor (Node α)), (∀ f ∈ fs, f ∈ t.realFactors ++ t.realDivisors) →
      (fs.map (Node.reduceFactor reduce)).map Node.asFactor = fs := by
    intro fs inside
    rw [List.map_map]
    refine (List.map_congr_left fun f hf => ?_).trans (List.map_id fs)
    rw [Function.comp_apply, shown f (inside f hf)]
    exact (h.lasts f (inside f hf)).asFactor_shown
  have rebuilt : ofNodes t.numerator t.denominator (t.realFactors.map (Node.reduceFactor reduce))
      (t.realDivisors.map (Node.reduceFactor reduce)) = t := by
    rw [ofNodes, same _ fun f => List.mem_append_left _, same _ fun f => List.mem_append_right _,
      h.rebuilt]
  rw [Node.reduceTerm, rebuilt]
  dsimp only
  rw [nonzero, if_neg (by simp)]
  rcases only : t.realFactors with _ | ⟨f, _ | ⟨g, gs⟩⟩
  · rw [FieldScalar.ofValue_eq]
  · have member : f ∈ t.realFactors ++ t.realDivisors := by
      rw [only]
      exact List.mem_append_left _ List.mem_cons_self
    dsimp only
    rewrite [shown f member]
    rfl
  · rfl

/-- Reducing a canonical term of reduced parts gives its plainest node. -/
theorem reduceTerm_eq (h : t.Canonical) (nonzero : t.isZero = false) {reduce : Node α → Node α}
    (fixed : ∀ f ∈ t.realFactors ++ t.realDivisors,
      reduce f.base = f.base ∧ reduce f.exponent = f.exponent) :
    Node.reduceTerm reduce t = t.plainest := by
  have trivial : ∀ f ∈ t.realFactors ++ t.realDivisors,
      Node.reduceAt 0 f.base = f.base ∧ Node.reduceAt 0 f.exponent = f.exponent :=
    fun f _ => ⟨rfl, rfl⟩
  rw [plainest, h.reduceTerm_unfold nonzero fixed, h.reduceTerm_unfold nonzero trivial]

end Canonical

/-- The forms of the plainest node of a term, each with the term it is the form of. -/
inductive Form (t : Term α (Node α)) : Node α → Prop
  | product : Form t (.product t)
  | number (x : α) (term : t = normal x 1 [] []) : Form t (.number x)
  | shown (f : Factor (Node α)) (present : f.Present) (member : f ∈ t.realFactors)
      (term : t = normal 1 1 [f] []) : Form t f.shown
  | var (v : Variable) (term : t = normal (-1) 1 [⟨.var v false, .number 1⟩] []) : Form t (.var v true)
  | constant (c : Constant) (term : t = normal (-1) 1 [⟨.constant c false, .number 1⟩] []) :
      Form t (.constant c true)

variable [ExactScalar α]

theorem Canonical.form (h : t.Canonical) (nonzero : t.isZero = false) : t.Form t.plainest := by
  have rebuilt := h.rebuilt
  have present := h.present
  rw [plainest, h.reduceTerm_unfold nonzero fun f _ => ⟨rfl, rfl⟩]
  split
  · rename_i plain
    rw [Bool.and_eq_true, beq_iff_eq, List.isEmpty_iff] at plain
    rw [plain.1, plain.2] at rebuilt
    split
    · rename_i none
      rw [none] at rebuilt
      exact .number _ rebuilt.symm
    · rename_i f only
      rw [only] at rebuilt
      have member : f ∈ t.realFactors := by
        rw [only]
        exact List.mem_cons_self
      have single := present f (List.mem_append_left _ member)
      split
      · rename_i one
        rw [eq_of_beq one] at rebuilt
        exact .shown f single member rebuilt.symm
      · split
        · rename_i minus
          rw [eq_of_beq minus] at rebuilt
          -- a name that is shown by itself stands under the exponent one, without a sign
          cases unit : f.isUnit with
          | false =>
            rw [Factor.shown_of_other unit]
            exact .product
          | true =>
            have kept := (single.lasts.number 1 (Node.eq_number_of_isUnit unit)).2
            rw [Factor.eq_of_isUnit unit] at rebuilt
            rw [Factor.shown_of_isUnit unit]
            split
            · rename_i v negative name
              rw [name] at kept rebuilt
              simp only [Node.keeps, ExactScalar.isWhole_one, Bool.and_true, Bool.not_eq_true'] at kept
              rw [kept] at rebuilt ⊢
              exact .var v rebuilt.symm
            · rename_i c negative name
              rw [name] at kept rebuilt
              simp only [Node.keeps, ExactScalar.isWhole_one, Bool.and_true, Bool.not_eq_true'] at kept
              rw [kept] at rebuilt ⊢
              exact .constant c rebuilt.symm
            · exact .product
        · exact .product
    · exact .product
  · exact .product

/-- The plainest node of a term is the term itself among terms. -/
theorem Form.wrap_eq {n : Node α} (h : t.Form n) : wrap n = t := by
  cases h with
  | product => rfl
  | number x term => rw [wrap_number, term]
  | shown f present member term => rw [present.lasts.wrap_shown, ← term]
  | var v term =>
    rw [wrap_var, term]
    rfl
  | constant c term =>
    rw [wrap_constant, term]
    rfl

theorem Canonical.wrap_plainest (h : t.Canonical) (nonzero : t.isZero = false) :
    wrap t.plainest = t := (h.form nonzero).wrap_eq

/-- A node of a term that is not nothing but a sum is no sum of several terms. -/
theorem eq_singleton_of_wrap {ts : List (Term α (Node α))} (h : wrap (.sum ts) = t)
    (other : t.soleSum? = none) : ts = [t] := by
  by_cases single : ∃ u, ts = [u]
  · obtain ⟨u, rfl⟩ := single
    exact congrArg (fun v => [v]) h
  have whole : (Node.sum ts).isSpliced = false ∧ (Node.sum ts).keeps 1 = true ∧
      (Node.sum ts).isOne = false := by
    rcases ts with _ | ⟨u, _ | ⟨v, vs⟩⟩
    · simp [Node.isSpliced, Node.keeps, Node.isOne]
    · exact absurd ⟨u, rfl⟩ single
    · simp [Node.isSpliced, Node.keeps, Node.isOne]
  have present : ∀ f ∈ [⟨.sum ts, .number 1⟩] ++ ([] : List (Factor (Node α))), f.Present :=
    List.forall_mem_singleton.2 (present_base whole.2.1 whole.2.2)
  obtain ⟨numerator, denominator, factors, divisors⟩ :=
    normal_parts (n := (1 : α)) present ExactScalar.one_lt_zero
  rw [← h, wrap_eq whole.1, soleSum?, numerator, denominator, factors, divisors] at other
  simp [Node.isUnit] at other

/-- Among the summands of a sum a node stands for its term, unless that is nothing but a sum. -/
theorem summands_of_wrap {n : Node α} (h : wrap n = t) (other : t.soleSum? = none) :
    Node.summands n = [t] := by
  cases n with
  | sum ts => exact eq_singleton_of_wrap h other
  | _ => exact Node.summands_eq nofun h other

/-- A node is added as its term, unless that is nothing but a sum. -/
theorem addends_of_wrap {n : Node α} (h : wrap n = t) (other : t.soleSum? = none) :
    Node.addends n = [t] := by
  unfold Node.addends
  split
  · exact eq_singleton_of_wrap h other
  · rw [h]

end Term

end SymbolicAlgebra
