/-
  Expressions that come back when they are built again
  ====================================================
  Every term of an obtained expression is normal, so what keeps a term from coming back
  unchanged when it is built again is an undissolved factor, and nothing else. Where all
  terms are dissolved, the whole expression comes back as its own twin
  (**`Node.clone_twin`**), and a denominator that two terms share is just what was added
  to both (**`Term.Lasting.overShared`**).
-/
import SymbolicAlgebra.Proofs.Shape.Sum
import SymbolicAlgebra.Proofs.Lasting.Dissolved
import SymbolicAlgebra.Node.Simplify

namespace SymbolicAlgebra

variable {α : Type} [Scalar α]

/-! ### Twins last together -/

namespace Node.Twin

variable {a : Node α}

theorem eq_number {x : α} (h : a.Twin (.number x)) : a = .number x := by
  cases h
  rfl

theorem eq_constant {c : Constant} {negative : Bool} (h : a.Twin (.constant c negative)) :
    a = .constant c negative := by
  cases h
  rfl

theorem eq_var {v : Variable} {negative : Bool} (h : a.Twin (.var v negative)) :
    a = .var v negative := by
  cases h
  rfl

end Node.Twin

namespace Factor.Twin

variable {f g : Factor (Node α)}

theorem isOne_eq (h : f.Twin g) : f.isOne = g.isOne := Node.Twin.agree h |>.one

theorem isUnit_eq (h : f.Twin g) : f.isUnit = g.isUnit := (twin_iff.1 h).2.isUnit_eq

theorem normal (h : f.Twin g) (normal : f.Normal) : g.Normal := by
  obtain ⟨base, exponent⟩ := twin_iff.1 h
  constructor
  · rw [← exponent.agree.zero, normal.real]
  · intro b x number power
    exact normal.symbolic b x (number ▸ base).eq_number (power ▸ exponent).eq_number
  · intro x power
    exact normal.upright x (power ▸ exponent).eq_number
  · intro x power whole
    obtain ⟨named, known⟩ := normal.unsigned x (power ▸ exponent).eq_number whole
    exact ⟨fun v signed => named v (signed ▸ base).eq_var,
      fun c signed => known c (signed ▸ base).eq_constant⟩

theorem dissolved (h : f.Twin g) (dissolved : f.Dissolved) : g.Dissolved := by
  intro unit
  rw [← (twin_iff.1 h).1.isSpliced_eq]
  exact dissolved (h.isUnit_eq.trans unit)

theorem lasting (h : f.Twin g) (lasting : f.Lasting) : g.Lasting :=
  ⟨h.normal lasting.normal, h.dissolved lasting.dissolved⟩

end Factor.Twin

namespace Term

variable {t u : Term α (Node α)}

theorem Twin.isZero_eq (h : t.Twin u) : t.isZero = u.isZero := Node.Twin.agree h |>.zero

theorem Twin.lasting (h : t.Twin u) (lasting : t.Lasting) : u.Lasting := by
  obtain ⟨⟨-, denominator⟩, factors, divisors⟩ := twin_iff.1 h
  obtain ⟨above, below⟩ := forall_realParts.1 lasting.factors
  refine ⟨denominator ▸ lasting.positive, forall_realParts.2 ⟨fun g hg => ?_, fun g hg => ?_⟩⟩
  · obtain ⟨f, hf, twins⟩ := exists_of_forall₂ factors hg
    exact Factor.Twin.lasting twins (above f hf)
  · obtain ⟨f, hf, twins⟩ := exists_of_forall₂ divisors hg
    exact Factor.Twin.lasting twins (below f hf)

/-- A term that is nothing but a sum in brackets is so with its twin. -/
theorem Twin.plain (h : t.Twin u) (plain : t.soleSum? = none) : u.soleSum? = none := by
  obtain ⟨⟨numerator, denominator⟩, factors, divisors⟩ := twin_iff.1 h
  unfold soleSum? at plain ⊢
  rw [← numerator, ← denominator]
  split
  · rename_i coefficient
    rw [if_pos coefficient] at plain
    split
    · rename_i us e above below
      rw [above] at factors
      rw [below] at divisors
      obtain ⟨f, _, twins, rest, listed⟩ := List.forall₂_cons_right_iff.1 factors
      obtain rfl := List.forall₂_nil_right_iff.1 rest
      obtain ⟨base, exponent⟩ := f
      obtain ⟨bases, exponents⟩ := Factor.twin_iff.1 twins
      dsimp only at bases exponents
      rw [listed, List.forall₂_nil_right_iff.1 divisors] at plain
      cases bases with
      | sum =>
        rw [← exponents.isUnit_eq]
        dsimp only at plain
        split at plain
        · cases plain
        · rename_i several
          rw [if_neg several]
    · rfl
  · rfl

/-- Twins of the factors of a lasting term make its twin. -/
theorem Lasting.twin_normal (h : t.Lasting) {fs gs : List (Factor (Node α))}
    (above : List.Forall₂ Factor.Twin t.realFactors fs)
    (below : List.Forall₂ Factor.Twin t.realDivisors gs) :
    t.Twin (normal t.numerator t.denominator fs gs) := by
  obtain ⟨upper, lower⟩ := forall_realParts.1 h.factors
  have lasting : ∀ g ∈ fs ++ gs, g.Lasting := by
    refine List.forall_mem_append.2 ⟨fun g hg => ?_, fun g hg => ?_⟩
    · obtain ⟨f, hf, twins⟩ := exists_of_forall₂ above hg
      exact Factor.Twin.lasting twins (upper f hf)
    · obtain ⟨f, hf, twins⟩ := exists_of_forall₂ below hg
      exact Factor.Twin.lasting twins (lower f hf)
  have real : ∀ {fs gs : List (Factor (Node α))},
      List.Forall₂ Factor.Twin (SymbolicAlgebra.realFactors fs) gs →
        SymbolicAlgebra.realFactors gs = gs := by
    intro fs gs twins
    refine List.filter_eq_self.2 fun g hg => ?_
    obtain ⟨f, hf, twin⟩ := exists_of_forall₂ twins hg
    rw [← Factor.Twin.isOne_eq twin]
    exact (List.mem_filter.1 hf).2
  obtain ⟨⟨numerator, denominator⟩, factors, divisors⟩ :=
    normal_lasting (n := t.numerator) lasting h.positive
  refine twin_iff.2 ⟨⟨numerator.symm, denominator.symm⟩, ?_, ?_⟩
  · rw [factors, real above]
    exact above
  · rw [divisors, real below]
    exact below

end Term

/-! ### Whole expressions -/

/-- Every term keeps the factors it has when it is built again, and every sum its terms. -/
def Demand.lasting : Demand α where
  number _ := True
  power _ := True
  term := Term.Lasting
  sum ts := Node.Gathered ts ∧ ∀ t ∈ ts, t.Lasting

namespace Node

variable {n : Node α}

/-- Nodes each of which contributes the twin of a term of a sum make the twin of the sum. -/
theorem flattened_twin {ts : List (Term α (Node α))} {ns : List (Node α)}
    (each : List.Forall₂ (fun t n => ∃ u, summands n = [u] ∧ t.Twin u) ts ns)
    (gathered : Gathered ts) : (Node.sum ts).Twin (.sum (flattened ns)) := by
  obtain ⟨us, twins, own⟩ : ∃ us, List.Forall₂ Term.Twin ts us ∧ ns.flatMap summands = us := by
    clear gathered
    induction each with
    | nil => exact ⟨[], .nil, rfl⟩
    | cons first _ ih =>
      obtain ⟨u, single, twin⟩ := first
      obtain ⟨us, twins, own⟩ := ih
      exact ⟨u :: us, .cons twin twins, by rw [List.flatMap_cons, single, own]; rfl⟩
  have order : (contributed ns).Perm (flattened ns) := (flattened_perm ns).symm
  rw [contributed, own] at order
  rcases gathered.nonzero with nonzero | rfl
  · have kept : us.filter (fun u => !u.isZero) = us := by
      refine List.filter_eq_self.2 fun u hu => ?_
      obtain ⟨t, ht, twin⟩ := exists_of_forall₂ twins hu
      rw [← Term.Twin.isZero_eq twin, nonzero t ht, Bool.not_false]
    have some : us ≠ [] := by
      rintro rfl
      exact gathered.some (List.forall₂_nil_right_iff.1 twins)
    rw [kept, if_neg (by simpa using some)] at order
    exact .sum twins order
  · obtain ⟨u, _, twin, rest, rfl⟩ := List.forall₂_cons_left_iff.1 twins
    obtain rfl := List.forall₂_nil_left_iff.1 rest
    cases zero : u.isZero with
    | true =>
      rw [List.filter_cons_of_neg (by simp [zero]), List.filter_nil, if_pos (by rfl)] at order
      exact .sum (.cons (Twin.refl _) .nil) order
    | false =>
      rw [List.filter_cons_of_pos (by simp [zero]), List.filter_nil, if_neg (by simp)] at order
      exact .sum twins order

/-- What lasts everywhere comes back as a twin when it is built again. -/
theorem clone_twin (h : n.Meets Demand.lasting) : n.Twin n.clone := by
  have term : ∀ t : Term α (Node α), t.Lasting → (∀ f ∈ t.realParts, f.Meets Demand.lasting) →
      (∀ f ∈ t.realParts, (f.base.Meets Demand.lasting → f.base.Twin f.base.clone) ∧
        (f.exponent.Meets Demand.lasting → f.exponent.Twin f.exponent.clone)) → t.Twin t.clone := by
    intro t lasting holds parts
    have copies : ∀ fs : List (Factor (Node α)), (∀ f ∈ realFactors fs, f ∈ t.realParts) →
        List.Forall₂ Factor.Twin (realFactors fs) (cloneFactors fs) := by
      intro fs inside
      rw [cloneFactors_eq, List.forall₂_map_right_iff, List.forall₂_same]
      intro f hf
      have member := inside f hf
      exact Factor.twin_iff.2 ⟨(parts f member).1 (holds f member).base,
        (parts f member).2 (holds f member).exponent⟩
    exact lasting.twin_normal (copies t.factors fun f hf => List.mem_append_left _ hf)
      (copies t.divisors fun f hf => List.mem_append_right _ hf)
  induction n using induction_parts with
  | number x => exact .number x
  | constant c negative => exact .constant c negative
  | var v negative => exact .var v negative
  | power f base exponent =>
    obtain ⟨-, parts⟩ := meets_power.1 h
    obtain ⟨b, e⟩ := f
    rw [clone]
    exact .power (base parts.base) (exponent parts.exponent)
  | product t parts =>
    obtain ⟨lasting, holds⟩ := meets_product.1 h
    exact term t lasting holds parts
  | sum ts parts =>
    obtain ⟨⟨gathered, lasting⟩, holds⟩ := meets_sum.1 h
    rw [clone, cloneTerms_eq, flattenedTerms]
    refine flattened_twin ?_ gathered
    rw [List.forall₂_map_right_iff, List.forall₂_map_right_iff, List.forall₂_same]
    intro t ht
    have twin := term t (lasting t ht) (holds t ht) (parts t ht)
    exact ⟨t.clone, summands_eq (by simp) rfl (Term.Twin.plain twin (gathered.plain t ht)), twin⟩
  | unary f x argument =>
    rw [clone]
    exact .unary f (argument (meets_unary.1 h))
  | binary f x y left right =>
    obtain ⟨first, second⟩ := meets_binary.1 h
    rw [clone]
    exact .binary f (left first) (right second)

end Node

/-! ### Obtained expressions -/

/-- Every term that counts is dissolved. -/
def Demand.dissolved : Demand α where
  number _ := True
  power _ := True
  term := Term.Dissolved
  sum ts := ∀ t ∈ ts, t.Dissolved

namespace Term

variable {t u : Term α (Node α)}

theorem Normal.factor (h : t.Normal) {f : Factor (Node α)} (member : f ∈ t.realParts) : f.Normal := by
  obtain ⟨listed, other⟩ := mem_realParts.1 member
  have normal : f = Factor.empty ∨ f.Normal :=
    (List.mem_append.1 listed).elim (h.factors.each f) (h.divisors.each f)
  exact normal.resolve_left (Factor.ne_empty_of_real other)

theorem Normal.lasting (h : t.Normal) (dissolved : t.Dissolved) : t.Lasting :=
  ⟨h.positive, fun f hf => ⟨h.factor hf, dissolved f hf⟩⟩

/-- Put over a shared denominator, a lasting term keeps what is added to both its sides. -/
theorem Lasting.overShared (ht : t.Lasting) (hu : u.Lasting) {w : Term α (Node α)}
    (either : w = t ∨ w = u) :
    let shared := (Tally.ofList Factor.same t.realDivisors).union Factor.same
      (Tally.ofList Factor.same u.realDivisors)
    let lacking := shared.excess Factor.same (Tally.ofList Factor.same w.realDivisors)
    (w.overShared shared).realFactors = w.realFactors ++ lacking ∧
      (w.overShared shared).realDivisors = w.realDivisors ++ lacking := by
  intro shared lacking
  have hw : w.Lasting := by
    rcases either with rfl | rfl
    · exact ht
    · exact hu
  have added : ∀ f ∈ lacking, f.Lasting ∧ f.isOne = false := by
    intro f hf
    have member : f ∈ t.realDivisors ++ u.realDivisors := Tally.mem_filling hf
    rcases List.mem_append.1 member with member | member
    · have part := List.mem_append_right t.realFactors member
      exact ⟨ht.factors f part, (mem_realParts.1 part).2⟩
    · have part := List.mem_append_right u.realFactors member
      exact ⟨hu.factors f part, (mem_realParts.1 part).2⟩
  by_cases none : lacking.isEmpty = true
  · have same : w.overShared shared = w := if_pos none
    rw [same, List.isEmpty_iff.1 none, List.append_nil, List.append_nil]
    exact ⟨rfl, rfl⟩
  · have built : w.overShared shared = normal w.numerator w.denominator
        (w.realFactors ++ lacking) (w.realDivisors ++ lacking) := if_neg none
    obtain ⟨upper, lower⟩ := forall_realParts.1 hw.factors
    have lasting : ∀ f ∈ (w.realFactors ++ lacking) ++ (w.realDivisors ++ lacking), f.Lasting := by
      simp only [List.forall_mem_append]
      exact ⟨⟨upper, fun f hf => (added f hf).1⟩, lower, fun f hf => (added f hf).1⟩
    have real : ∀ fs : List (Factor (Node α)), SymbolicAlgebra.realFactors
        (SymbolicAlgebra.realFactors fs ++ lacking) = SymbolicAlgebra.realFactors fs ++ lacking := by
      intro fs
      have kept : SymbolicAlgebra.realFactors lacking = lacking :=
        List.filter_eq_self.2 fun f hf => by rw [(added f hf).2, Bool.not_false]
      have first := realFactors_idem fs
      rw [SymbolicAlgebra.realFactors] at first kept ⊢
      rw [List.filter_append, first, kept]
    obtain ⟨-, factors, divisors⟩ := normal_lasting (n := w.numerator) lasting hw.positive
    rw [built, factors, divisors]
    exact ⟨real w.factors, real w.divisors⟩

end Term

namespace Node

variable {n : Node α}

theorem Throughout.lasting (h : n.Throughout Term.Normal Gathered)
    (dissolved : n.Meets Demand.dissolved) : n.Meets Demand.lasting := by
  have inside : ∀ t : Term α (Node α), (Node.product t).Throughout Term.Normal Gathered →
      ∀ f ∈ t.realParts, f.base.Throughout Term.Normal Gathered ∧
        f.exponent.Throughout Term.Normal Gathered := by
    intro t holds f hf
    obtain ⟨-, above, below⟩ := throughout_product.1 holds
    exact throughout_power.1
      ((List.mem_append.1 (Term.mem_realParts.1 hf).1).elim (above f) (below f))
  induction n using induction_parts with
  | number x => exact .number x trivial
  | constant c negative => exact .constant c negative
  | var v negative => exact .var v negative
  | power f base exponent =>
    obtain ⟨first, second⟩ := throughout_power.1 h
    obtain ⟨-, parts⟩ := meets_power.1 dissolved
    exact .power f trivial (base first parts.base) (exponent second parts.exponent)
  | product t parts =>
    obtain ⟨clear, each⟩ := meets_product.1 dissolved
    refine meets_product.2 ⟨(throughout_product.1 h).1.lasting clear, fun f hf => ?_⟩
    obtain ⟨base, exponent⟩ := inside t h f hf
    exact ⟨(parts f hf).1 base (each f hf).base, (parts f hf).2 exponent (each f hf).exponent⟩
  | sum ts parts =>
    obtain ⟨gathered, terms⟩ := throughout_sum.1 h
    obtain ⟨clear, each⟩ := meets_sum.1 dissolved
    refine meets_sum.2 ⟨⟨gathered, fun t ht =>
      (throughout_product.1 (terms t ht)).1.lasting (clear t ht)⟩, fun t ht f hf => ?_⟩
    obtain ⟨base, exponent⟩ := inside t (terms t ht) f hf
    exact ⟨(parts t ht f hf).1 base (each t ht f hf).base,
      (parts t ht f hf).2 exponent (each t ht f hf).exponent⟩
  | unary f x argument =>
    exact .unary f x (argument (throughout_unary.1 h) (meets_unary.1 dissolved))
  | binary f x y left right =>
    obtain ⟨first, second⟩ := throughout_binary.1 h
    obtain ⟨clear, other⟩ := meets_binary.1 dissolved
    exact .binary f x y (left first clear) (right second other)

theorem Obtained.gathered [SignedScalar α] (h : n.Obtained) : n.Throughout Term.Normal Gathered := by
  have uniform : Uniform (Throughout Term.Normal Gathered : Node α → Prop) :=
    uniform_throughout Term.normal_normal
  exact h.throughout Term.normal_normal fun ns =>
    flattened_gathered fun _ gathered => gathered.plain

end Node

/-- A term is dissolved when it is built of nodes none of which inverts. An obtained term comes back
with the same coefficient and factors when it is built again exactly if it is dissolved; then what
makes its denominator a shared one stays in it, and if all terms in it are dissolved and its numbers
compare, it equals its clone. -/
theorem Term.obtained_restored [UnitScalar α] [PartialEquivBEq α] :
    (∀ (n d : α) (above below : List (Node α)),
      (ofNodes n d above below).Dissolved ↔ ∀ m ∈ above ++ below, ¬ m.asFactor.Inverts) ∧
    ∀ t : Term α (Node α), (Node.product t).Obtained →
      (t.Restored ↔ t.Dissolved) ∧
      (t.Dissolved → ∀ u : Term α (Node α), (Node.product u).Obtained → u.Dissolved →
        ∀ w : Term α (Node α), w = t ∨ w = u →
          let shared := (Tally.ofList Factor.same t.realDivisors).union Factor.same
            (Tally.ofList Factor.same u.realDivisors)
          let lacking := shared.excess Factor.same (Tally.ofList Factor.same w.realDivisors)
          (w.overShared shared).realFactors = w.realFactors ++ lacking ∧
            (w.overShared shared).realDivisors = w.realDivisors ++ lacking) ∧
      ((Node.product t).Meets Demand.dissolved → t.Comparable → t.clone.same t = true) := by
  have normal : ∀ t : Term α (Node α), (Node.product t).Obtained → t.Normal :=
    fun t obtained => (Node.throughout_product.1 obtained.gathered).1
  refine ⟨fun n d above below => ?_, fun t obtained => ⟨⟨?_, ?_⟩, ?_, ?_⟩⟩
  · rw [ofNodes, dissolved_normal_iff, ← List.map_append]
    exact List.forall_mem_map
  · exact fun restored => restored.dissolved
  · exact fun dissolved => ((normal t obtained).lasting dissolved).restored
  · intro dissolved u other clear w either
    exact ((normal t obtained).lasting dissolved).overShared ((normal u other).lasting clear) either
  · intro dissolved comparable
    have twin := Node.clone_twin (obtained.gathered.lasting dissolved)
    have clone : (Node.product t).clone = .product t.clone := by
      rw [Node.clone, Term.clone]
    rw [clone] at twin
    exact Node.same_equivalence.symm _ _ comparable (twin.comparable comparable)
      (twin.same comparable)

instance : UnitScalar ℚ where
  eq_one := eq_of_beq
  one_lt_zero := rfl
  beq_zero {x} negative := by
    have below : x < 0 := of_decide_eq_true negative
    exact beq_false_of_ne below.ne

/-- A power of a variable over another variable, and the inverse of that power. -/
theorem Term.obtained_restored_fraction :
    let x : Node ℚ := .var ⟨'x', 0⟩ false
    let y : Node ℚ := .var ⟨'y', 0⟩ false
    let t : Term ℚ (Node ℚ) := ofNodes 2 3 [.power ⟨x, .number 2⟩] [y]
    let u : Term ℚ (Node ℚ) := ofNodes 1 1 [] [.power ⟨x, .number 2⟩]
    let shared := (Tally.ofList Factor.same t.realDivisors).union Factor.same
      (Tally.ofList Factor.same u.realDivisors)
    t.Restored ∧ t.clone.same t = true ∧ (t.overShared shared).realDivisors =
      t.realDivisors ++ shared.excess Factor.same (Tally.ofList Factor.same t.realDivisors) := by
  intro x y t u shared
  obtain ⟨built, each⟩ := obtained_restored (α := ℚ)
  have square : (Node.power ⟨x, .number 2⟩).Obtained := .power (.var _ _) (.number 2)
  have obtained : (Node.product t).Obtained :=
    .product 2 3 (List.forall_mem_singleton.2 square) (List.forall_mem_singleton.2 (.var _ _))
  have other : (Node.product u).Obtained :=
    .product 1 1 (List.forall_mem_nil _) (List.forall_mem_singleton.2 square)
  have dissolved : t.Dissolved := by
    refine (built 2 3 [.power ⟨x, .number 2⟩] [y]).2 (List.forall_mem_cons.2 ⟨?_, ?_⟩)
    · exact not_inverts_of_whole rfl
    · exact List.forall_mem_singleton.2 (not_inverts_of_whole rfl)
  have plain : u.Dissolved := (built 1 1 [] [.power ⟨x, .number 2⟩]).2
    (List.forall_mem_singleton.2 (not_inverts_of_whole rfl))
  have leaves : ∀ f ∈ t.realParts, f.Meets Demand.dissolved := by
    have lasting : ∀ f : Factor (Node ℚ), f ∈ [⟨x, .number 2⟩] ++ [⟨y, .number 1⟩] → f.Lasting :=
      List.forall_mem_cons.2
        ⟨Factor.lasting_var rfl rfl, List.forall_mem_singleton.2 (Factor.lasting_var rfl rfl)⟩
    obtain ⟨-, factors, divisors⟩ := normal_lasting (n := 2) (d := 3) lasting rfl
    refine forall_realParts.2 ⟨fun f hf => ?_, fun f hf => ?_⟩
    · obtain rfl := List.mem_singleton.1 (List.mem_filter.1 (factors ▸ hf)).1
      exact ⟨.var _ _, .number _ trivial⟩
    · obtain rfl := List.mem_singleton.1 (List.mem_filter.1 (divisors ▸ hf)).1
      exact ⟨.var _ _, .number _ trivial⟩
  obtain ⟨restored, kept, cloned⟩ := each t obtained
  exact ⟨restored.2 dissolved, cloned (Node.meets_product.2 ⟨dissolved, leaves⟩) (Node.comparable _),
    (kept dissolved u other plain t (.inl rfl)).2⟩

/-- The inverse of a product, divided by, is listed as a divisor that has still to dissolve. -/
theorem Term.not_restored_inverse :
    let x : Node ℚ := .var ⟨'x', 0⟩ false
    let double : Node ℚ := .product (ofNodes 2 1 [x] [])
    let t : Term ℚ (Node ℚ) := ofNodes 1 1 [.power ⟨double, .number (-1)⟩] []
    (Node.product t).Obtained ∧ ¬ t.Restored := by
  intro x double t
  constructor
  · refine .product 1 1 (List.forall_mem_singleton.2 ?_) (List.forall_mem_nil _)
    exact .power (.product 2 1 (List.forall_mem_singleton.2 (.var _ _)) (List.forall_mem_nil _))
      (.number (-1))
  · intro restored
    have other : double.isOne = false := by
      have lasting : ∀ f : Factor (Node ℚ), f ∈ [⟨x, .number 1⟩] ++ [] → f.Lasting :=
        List.forall_mem_singleton.2 (Factor.lasting_var rfl rfl)
      obtain ⟨⟨numerator, denominator⟩, -⟩ := normal_lasting (n := 2) (d := 1) lasting rfl
      refine (isOne_eq (normal (2 : ℚ) 1 [⟨x, .number 1⟩] [])).trans ?_
      rw [numerator, denominator]
      rfl
    have none := (dissolved_normal_iff 1 1 [⟨double, .number (-1)⟩] []).1 restored.dissolved
    exact none _ List.mem_cons_self (.crosses rfl rfl rfl other)

end SymbolicAlgebra
