/-
  Terms that come back when they are built again
  ==============================================
  A factor is *dissolved* when it is no term, no sum of one term and no power under the
  plain exponent one (`Factor.Dissolved`). What is built of dissolved factors that are
  normal keeps them as they are (`Term.normal_lasting`).

  Whether a factor dissolves is decided before it crosses the bar, so one kind of
  factor is listed undissolved: a base with factors of its own to the power of minus one
  becomes that base under the exponent one on the other side (`Factor.Inverts`). A term
  is dissolved exactly when no factor does so, neither one it is built from nor one that
  dissolving lays open: **`Term.dissolved_normal_iff`**.
-/
import SymbolicAlgebra.Proofs.Shape.Term
import SymbolicAlgebra.Proofs.Lasting.Twin

namespace SymbolicAlgebra

/-- Scalars in which nothing is equal to one but one itself, and a number below zero is neither
one nor zero. -/
class UnitScalar (α : Type) [Scalar α] : Prop extends SignedScalar α where
  eq_one : ∀ {x : α}, (x == 1) = true → x = 1
  one_lt_zero : Scalar.lt (1 : α) 0 = false
  beq_zero : ∀ {x : α}, Scalar.lt x 0 = true → (x == 0) = false

variable {α : Type} [Scalar α]

/-! ### Dissolved factors -/

namespace Factor

/-- The factor has nothing to give up: under the plain exponent one its base has no factors of its
own. -/
def Dissolved (f : Factor (Node α)) : Prop := f.isUnit = true → f.base.isSpliced = false

/-- A factor that a term keeps as it is. -/
structure Lasting (f : Factor (Node α)) : Prop where
  normal : f.Normal
  dissolved : f.Dissolved

/-- Crossing the bar, the factor or one that it gives up becomes a base with factors of its own
under the plain exponent one. -/
inductive Inverts : Factor (Node α) → Prop
  | crosses {b : Node α} {x : α} (negative : Scalar.lt x 0 = true) (unit : (-x == 1) = true)
      (spliced : b.isSpliced = true) (other : b.isOne = false) : Inverts ⟨b, .number x⟩
  | product {t : Term α (Node α)} {e : Node α} {f : Factor (Node α)} (real : e.isZero = false)
      (unit : e.isUnit = true) (member : f ∈ t.realParts) (inverts : Inverts f) :
      Inverts ⟨.product t, e⟩
  | single {t : Term α (Node α)} {e : Node α} {f : Factor (Node α)} (real : e.isZero = false)
      (unit : e.isUnit = true) (member : f ∈ t.realParts) (inverts : Inverts f) :
      Inverts ⟨.sum [t], e⟩
  | power {f : Factor (Node α)} {e : Node α} (real : e.isZero = false) (unit : e.isUnit = true)
      (inverts : Inverts f) : Inverts ⟨.power f, e⟩

/-- The factor counts, and its base has factors of its own under the plain exponent one. -/
structure Undissolved (f : Factor (Node α)) : Prop where
  other : f.isOne = false
  unit : f.isUnit = true
  spliced : f.base.isSpliced = true

end Factor

namespace Term

/-- Every factor of the term that counts is dissolved. -/
def Dissolved (t : Term α (Node α)) : Prop := ∀ f ∈ t.realParts, f.Dissolved

/-- A factor of the term that counts is not dissolved. -/
def Clotted (t : Term α (Node α)) : Prop := ∃ f ∈ t.factors ++ t.divisors, f.Undissolved

theorem dissolved_iff {t : Term α (Node α)} : t.Dissolved ↔ ¬ t.Clotted := by
  constructor
  · rintro dissolved ⟨f, member, undissolved⟩
    have whole := dissolved f (mem_realParts.2 ⟨member, undissolved.other⟩) undissolved.unit
    rw [undissolved.spliced] at whole
    cases whole
  · intro clear f member unit
    obtain ⟨listed, other⟩ := mem_realParts.1 member
    by_contra spliced
    exact clear ⟨f, listed, other, unit, by simpa using spliced⟩

/-! ### Building -/

section Building

variable {t : Term α (Node α)} {f : Factor (Node α)}

theorem clotted_push (t : Term α (Node α)) (above : Bool) (f : Factor (Node α)) :
    (t.push above f).Clotted ↔ t.Clotted ∨ f.Undissolved := by
  have listed : ∀ g, g ∈ (t.push above f).factors ++ (t.push above f).divisors ↔
      g ∈ t.factors ++ t.divisors ∨ g = f := by
    intro g
    cases above
    · simp [push, or_assoc]
    · simp only [push, if_true, List.mem_append, List.mem_singleton]
      tauto
  unfold Clotted
  simp only [listed, or_and_right, exists_or, exists_eq_left]

theorem clotted_scale (t : Term α (Node α)) (above : Bool) (x : α) :
    (t.scale above x).Clotted ↔ t.Clotted := by
  cases above <;> rfl

theorem clotted_scaleBy (t : Term α (Node α)) (above : Bool) (u : Term α (Node α)) :
    (t.scaleBy above u).Clotted ↔ t.Clotted := by
  cases above <;> rfl

theorem dissolved_settled (t : Term α (Node α)) : t.settled.Dissolved ↔ t.Dissolved := by
  unfold Dissolved realParts
  rw [(settled_real t).1, (settled_real t).2]

/-- What is multiplied in is listed undissolved when it was so before. -/
theorem clotted_multiplyBy (t : Term α (Node α)) (above : Bool) (f : Factor (Node α)) :
    (t.multiplyBy above f).Clotted ↔ t.Clotted ∨ f.Undissolved := by
  obtain ⟨base, exponent⟩ := f
  have flipped : ∀ x : α, (if Scalar.isOdd x = true then
      { t with numerator := -t.numerator } else t).Clotted ↔ t.Clotted := by
    intro x
    split <;> rfl
  have whole : ∀ {b : Node α}, b.isSpliced = false → ¬ Factor.Undissolved ⟨b, exponent⟩ := by
    intro b whole undissolved
    have spliced := undissolved.spliced
    rw [whole] at spliced
    cases spliced
  unfold multiplyBy
  dsimp only
  split
  · rw [clotted_scale, or_iff_left (whole rfl)]
  · split
    · rw [clotted_push, flipped, or_iff_left (whole rfl), or_iff_left (whole rfl)]
    · rw [clotted_push]
  · split
    · rw [clotted_push, flipped, or_iff_left (whole rfl), or_iff_left (whole rfl)]
    · rw [clotted_push]
  · rw [clotted_push]

variable [UnitScalar α]

omit [UnitScalar α] in
/-- What does not dissolve itself can only cross the bar. -/
theorem inverts_of_whole {b e : Node α} (whole : e.isUnit = true → b.isSpliced = false)
    (h : Factor.Inverts ⟨b, e⟩) : ∃ x, e = .number x ∧ Scalar.lt x 0 = true ∧ (-x == 1) = true ∧
      b.isSpliced = true ∧ b.isOne = false := by
  cases h with
  | crosses negative unit spliced other => exact ⟨_, rfl, negative, unit, spliced, other⟩
  | product _ unit => cases whole unit
  | single _ unit => cases whole unit
  | power _ unit => cases whole unit

omit [UnitScalar α] in
theorem not_inverts_of_whole {b e : Node α} (whole : b.isSpliced = false) :
    ¬ Factor.Inverts ⟨b, e⟩ := by
  intro inverts
  obtain ⟨-, -, -, -, spliced, -⟩ := inverts_of_whole (fun _ => whole) inverts
  rw [whole] at spliced
  cases spliced

theorem clotted_absorb (t : Term α (Node α)) (above : Bool) {b e : Node α}
    (whole : e.isUnit = true → b.isSpliced = false) :
    (t.absorb above ⟨b, e⟩).Clotted ↔ t.Clotted ∨ Factor.Inverts ⟨b, e⟩ := by
  have stays : ¬ Factor.Undissolved ⟨b, e⟩ := by
    intro undissolved
    have spliced := undissolved.spliced
    rw [whole undissolved.unit] at spliced
    cases spliced
  unfold absorb
  split
  · rename_i x shown
    obtain rfl : e = .number x := shown
    split
    · rename_i negative
      have turned : Node.ofValue (-x) = (.number (-x) : Node α) := by
        rw [Node.ofValue, Scalar.unsignedZero, if_neg (by simp [SignedScalar.neg_beq x negative])]
      have present : (Node.number (-x)).isZero = false := by
        rw [Node.isZero, SignedScalar.neg_beq x negative]
      rw [turned, clotted_multiplyBy]
      refine or_congr_right ⟨fun undissolved => ?_, fun inverts => ?_⟩
      · have other := undissolved.other
        rw [Factor.isOne, present, Bool.false_or] at other
        exact .crosses negative undissolved.unit undissolved.spliced other
      · obtain ⟨y, same, -, unit, spliced, other⟩ := inverts_of_whole whole inverts
        cases same
        refine ⟨?_, unit, spliced⟩
        rw [Factor.isOne, present, Bool.false_or, other]
    · rename_i positive
      rw [clotted_multiplyBy, or_iff_left stays, or_iff_left]
      intro inverts
      obtain ⟨y, same, negative, -⟩ := inverts_of_whole whole inverts
      cases same
      exact positive negative
  · rename_i symbolic
    rw [clotted_multiplyBy, or_iff_left stays, or_iff_left]
    intro inverts
    obtain ⟨y, rfl, -⟩ := inverts_of_whole whole inverts
    exact symbolic y rfl

omit [UnitScalar α] in
theorem exists_sides {u : Term α (Node α)} {above : Bool} :
    (∃ p ∈ u.sides above, p.1.Inverts) ↔ ∃ f ∈ u.realParts, f.Inverts := by
  simp only [sides, realParts, List.mem_append, List.mem_map]
  constructor
  · rintro ⟨p, ⟨f, member, rfl⟩ | ⟨f, member, rfl⟩, inverts⟩
    · exact ⟨f, .inl member, inverts⟩
    · exact ⟨f, .inr member, inverts⟩
  · rintro ⟨f, member | member, inverts⟩
    · exact ⟨_, .inl ⟨f, member, rfl⟩, inverts⟩
    · exact ⟨_, .inr ⟨f, member, rfl⟩, inverts⟩

theorem not_inverts_of_zero {b e : Node α} (zero : e.isZero = true) : ¬ Factor.Inverts ⟨b, e⟩ := by
  intro inverts
  cases inverts with
  | @crosses _ x negative =>
    have some := UnitScalar.beq_zero negative
    rw [show (x == (0 : α)) = true from zero] at some
    cases some
  | product real | single real | power real =>
    rw [zero] at real
    cases real

-- under the exponent one only what the base gives up can invert
section Unit

variable {e : Node α} (real : e.isZero = false) (unit : e.isUnit = true)

omit real in
include unit in
theorem not_negative_of_isUnit {x : α} (number : e = .number x) : ¬ Scalar.lt x 0 = true := by
  subst number
  rw [UnitScalar.eq_one (show (x == 1) = true from unit), UnitScalar.one_lt_zero]
  exact Bool.false_ne_true

include real unit

theorem inverts_product {u : Term α (Node α)} :
    Factor.Inverts ⟨.product u, e⟩ ↔ ∃ f ∈ u.realParts, f.Inverts := by
  constructor
  · intro inverts
    cases inverts with
    | crosses negative => exact absurd negative (not_negative_of_isUnit unit rfl)
    | product _ _ member inverts => exact ⟨_, member, inverts⟩
  · rintro ⟨f, member, inverts⟩
    exact .product real unit member inverts

theorem inverts_single {u : Term α (Node α)} :
    Factor.Inverts ⟨.sum [u], e⟩ ↔ ∃ f ∈ u.realParts, f.Inverts := by
  constructor
  · intro inverts
    cases inverts with
    | crosses negative => exact absurd negative (not_negative_of_isUnit unit rfl)
    | single _ _ member inverts => exact ⟨_, member, inverts⟩
  · rintro ⟨f, member, inverts⟩
    exact .single real unit member inverts

theorem inverts_power {f : Factor (Node α)} : Factor.Inverts ⟨.power f, e⟩ ↔ f.Inverts := by
  constructor
  · intro inverts
    cases inverts with
    | crosses negative => exact absurd negative (not_negative_of_isUnit unit rfl)
    | power _ _ inverts => exact inverts
  · exact .power real unit

end Unit

/-- A factor is listed undissolved when one was before or a waiting one inverts. -/
theorem clotted_gather (pending : List (Factor (Node α) × Bool)) (t : Term α (Node α)) :
    (gather pending t).Clotted ↔ t.Clotted ∨ ∃ p ∈ pending, p.1.Inverts := by
  have first : ∀ {p : Factor (Node α) × Bool} {rest : List (Factor (Node α) × Bool)},
      (∃ q ∈ p :: rest, q.1.Inverts) ↔ p.1.Inverts ∨ ∃ q ∈ rest, q.1.Inverts := by
    intro p rest
    exact List.exists_mem_cons_iff _ _ _
  have behind : ∀ {ps qs : List (Factor (Node α) × Bool)}, (∃ q ∈ ps ++ qs, q.1.Inverts) ↔
      (∃ q ∈ qs, q.1.Inverts) ∨ ∃ q ∈ ps, q.1.Inverts := by
    intro ps qs
    simp only [List.mem_append, or_and_right, exists_or]
    exact or_comm
  fun_induction gather pending t with
  | case1 t => simp
  | case2 t base exponent above rest zero ih =>
    refine ih.trans ?_
    rw [first, or_iff_right (not_inverts_of_zero zero)]
  | case3 t exponent above rest zero unit u ih =>
    refine ih.trans ?_
    rw [clotted_scaleBy, first, behind, exists_sides, inverts_product (by simpa using zero) unit]
  | case4 t exponent above rest zero unit u ih =>
    refine ih.trans ?_
    rw [clotted_scaleBy, first, behind, exists_sides, inverts_single (by simpa using zero) unit]
  | case5 t exponent above rest zero unit f ih =>
    have single : (∃ q ∈ [(f, above)], q.1.Inverts) ↔ f.Inverts := by
      simp only [List.mem_singleton, exists_eq_left]
    refine ih.trans ?_
    rw [first, behind, single, inverts_power (by simpa using zero) unit]
  | case6 t exponent above rest zero unit base product single power ih =>
    refine ih.trans ?_
    rw [clotted_absorb t above fun _ => Node.isSpliced_of_apart product single power, first,
      or_assoc]
  | case7 t base exponent above rest zero composite ih =>
    refine ih.trans ?_
    rw [clotted_absorb t above fun unit => absurd unit composite, first, or_assoc]

/-- The factors of a term are dissolved exactly when none of those it is built from inverts. -/
theorem dissolved_normal_iff (n d : α) (fs gs : List (Factor (Node α))) :
    (normal n d fs gs).Dissolved ↔ ∀ f ∈ fs ++ gs, ¬ f.Inverts := by
  have start : ¬ (⟨n, d, [], []⟩ : Term α (Node α)).Clotted := by
    rintro ⟨f, member, -⟩
    cases member
  rw [normal, dissolved_settled, dissolved_iff, clotted_gather, or_iff_right start]
  simp only [List.mem_append, List.mem_map, not_exists, not_and]
  constructor
  · rintro none f (member | member)
    · exact none _ (.inl ⟨f, member, rfl⟩)
    · exact none _ (.inr ⟨f, member, rfl⟩)
  · rintro none p (⟨f, member, rfl⟩ | ⟨f, member, rfl⟩)
    · exact none f (.inl member)
    · exact none f (.inr member)

end Building

/-! ### Built again -/

/-- A term whose factors last, with a denominator that is not below zero. -/
structure Lasting (t : Term α (Node α)) : Prop where
  positive : Scalar.lt t.denominator 0 = false
  factors : ∀ f ∈ t.realParts, f.Lasting

end Term

namespace Factor.Lasting

variable {f : Factor (Node α)}

/-- Multiplying a term by a lasting factor adds it as it stands. -/
theorem multiplyBy_eq (h : f.Lasting) (t : Term α (Node α)) (above : Bool) :
    t.multiplyBy above f = t.push above f := by
  have symbolic := h.normal.symbolic
  have unsigned := h.normal.unsigned
  obtain ⟨base, exponent⟩ := f
  dsimp only at symbolic unsigned
  unfold Term.multiplyBy
  dsimp only
  split
  · exact absurd rfl (symbolic _ _ rfl)
  · rename_i v x
    rw [if_neg fun whole => (unsigned x rfl whole).1 v rfl]
  · rename_i c x
    rw [if_neg fun whole => (unsigned x rfl whole).2 c rfl]
  · rfl

theorem pushed (h : f.Lasting) (above : Bool) (rest : List (Factor (Node α) × Bool))
    (t : Term α (Node α)) :
    Term.gather ((f, above) :: rest) t = Term.gather rest (t.push above f) := by
  rw [Term.gather_absorb h.normal.real h.dissolved]
  congr 1
  unfold Term.absorb
  split
  · rename_i x number
    rw [h.normal.upright x number, if_neg (by simp)]
    exact h.multiplyBy_eq t above
  · exact h.multiplyBy_eq t above

end Factor.Lasting

/-- A variable under a positive number lasts. -/
theorem Factor.lasting_var {v : Variable} {x : α} (present : (x == 0) = false)
    (positive : Scalar.lt x 0 = false) : Factor.Lasting ⟨.var v false, .number x⟩ := by
  refine ⟨⟨present, nofun, ?_, fun _ _ _ => ⟨nofun, nofun⟩⟩, fun _ => rfl⟩
  rintro _ ⟨⟩
  exact positive

namespace Term

variable {n d : α} {fs gs : List (Factor (Node α))} {t : Term α (Node α)}

theorem settled_coefficient (positive : Scalar.lt t.denominator 0 = false) :
    t.settled.numerator = t.numerator ∧ t.settled.denominator = t.denominator := by
  rw [settled, positive, if_neg (by simp)]
  exact ⟨rfl, rfl⟩

/-- A term that is built of lasting factors has just these, and its coefficient. -/
theorem normal_lasting (lasting : ∀ f ∈ fs ++ gs, f.Lasting) (positive : Scalar.lt d 0 = false) :
    ((normal n d fs gs).numerator = n ∧ (normal n d fs gs).denominator = d) ∧
      (normal n d fs gs).realFactors = SymbolicAlgebra.realFactors fs ∧
        (normal n d fs gs).realDivisors = SymbolicAlgebra.realFactors gs := by
  have built := normal_pushed (n := n) (d := d) fun f hf => (lasting f hf).pushed
  have coefficient := settled_coefficient (t := ⟨n, d, fs, gs⟩) positive
  obtain ⟨factors, divisors⟩ := settled_real (⟨n, d, fs, gs⟩ : Term α (Node α))
  rw [built]
  exact ⟨coefficient, factors, divisors⟩

theorem realFactors_idem (fs : List (Factor (Node α))) :
    SymbolicAlgebra.realFactors (SymbolicAlgebra.realFactors fs) = SymbolicAlgebra.realFactors fs := by
  rw [SymbolicAlgebra.realFactors, SymbolicAlgebra.realFactors, List.filter_filter]
  simp only [Bool.and_self]

/-- The term built again of its own coefficient and the factors that count. -/
def rebuilt (t : Term α (Node α)) : Term α (Node α) :=
  ofNodes t.numerator t.denominator (t.realFactors.map .power) (t.realDivisors.map .power)

/-- Built again, the term has the same coefficient and the same factors that count. -/
structure Restored (t : Term α (Node α)) : Prop where
  numerator : t.rebuilt.numerator = t.numerator
  denominator : t.rebuilt.denominator = t.denominator
  factors : t.rebuilt.realFactors = t.realFactors
  divisors : t.rebuilt.realDivisors = t.realDivisors

theorem rebuilt_eq (t : Term α (Node α)) :
    t.rebuilt = normal t.numerator t.denominator t.realFactors t.realDivisors := by
  have plain : ∀ fs : List (Factor (Node α)), (fs.map Node.power).map Node.asFactor = fs := by
    intro fs
    rw [List.map_map]
    exact List.map_id fs
  rw [rebuilt, ofNodes, plain, plain]

theorem Lasting.restored (h : t.Lasting) : t.Restored := by
  obtain ⟨⟨numerator, denominator⟩, factors, divisors⟩ :=
    normal_lasting (n := t.numerator) h.factors h.positive
  constructor
  · rw [rebuilt_eq, numerator]
  · rw [rebuilt_eq, denominator]
  · rw [rebuilt_eq, factors]
    exact realFactors_idem t.factors
  · rw [rebuilt_eq, divisors]
    exact realFactors_idem t.divisors

/-- What dissolves on the way is lost from the size of the term. -/
theorem factorSize_gather_lt {pending : List (Factor (Node α) × Bool)} {t : Term α (Node α)}
    (clotted : ∃ p ∈ pending, p.1.Undissolved) :
    (gather pending t).factorSize < t.factorSize + load pending := by
  fun_induction gather pending t with
  | case1 t =>
    obtain ⟨p, member, -⟩ := clotted
    cases member
  | case2 t base exponent above rest zero ih =>
    obtain ⟨p, member, undissolved⟩ := clotted
    rcases List.mem_cons.1 member with rfl | member
    · have other := undissolved.other
      rw [Factor.isOne, zero, Bool.true_or] at other
      cases other
    · have smaller := ih ⟨p, member, undissolved⟩
      rw [load_cons]
      omega
  | case3 t exponent above rest zero unit u ih =>
    have inner := load_sides u above
    have built := factorSize_gather_le (rest ++ u.sides above) (t.scaleBy above u)
    rw [load_append, factorSize_scaleBy] at built
    rw [load_cons]
    dsimp only
    omega
  | case4 t exponent above rest zero unit u ih =>
    have inner := load_sides u above
    have built := factorSize_gather_le (rest ++ u.sides above) (t.scaleBy above u)
    rw [load_append, factorSize_scaleBy] at built
    rw [load_cons]
    simp only [Node.size, Node.termSizes] at inner ⊢
    omega
  | case5 t exponent above rest zero unit f ih =>
    have built := factorSize_gather_le (rest ++ [(f, above)]) t
    rw [load_append, load_cons] at built
    rw [load_cons]
    simp only [Node.size, load, List.map_nil, List.sum_nil] at built ⊢
    omega
  | case6 t exponent above rest zero unit base product single power ih =>
    obtain ⟨p, member, undissolved⟩ := clotted
    rcases List.mem_cons.1 member with rfl | member
    · have spliced := undissolved.spliced
      rw [Node.isSpliced_of_apart product single power] at spliced
      cases spliced
    · have smaller := ih ⟨p, member, undissolved⟩
      have step := factorSize_absorb_le t above ⟨base, exponent⟩
      rw [Node.size] at step
      rw [load_cons]
      dsimp only
      omega
  | case7 t base exponent above rest zero composite ih =>
    obtain ⟨p, member, undissolved⟩ := clotted
    rcases List.mem_cons.1 member with rfl | member
    · exact absurd undissolved.unit composite
    · have smaller := ih ⟨p, member, undissolved⟩
      have step := factorSize_absorb_le t above ⟨base, exponent⟩
      rw [Node.size] at step
      rw [load_cons]
      dsimp only
      omega

theorem factorSize_eq (t : Term α (Node α)) :
    t.factorSize = load (t.realFactors.map (·, true) ++ t.realDivisors.map (·, false)) := by
  rw [load_append, realFactors, realDivisors, load_real, load_real, factorSize]

/-- Of normal factors only dissolved ones come back. -/
theorem Restored.dissolved (h : t.Restored) : t.Dissolved := by
  rw [dissolved_iff]
  rintro ⟨f, member, undissolved⟩
  have waiting : ∃ p ∈ t.realFactors.map (·, true) ++ t.realDivisors.map (·, false),
      p.1.Undissolved := by
    have real := mem_realParts.2 ⟨member, undissolved.other⟩
    rcases List.mem_append.1 real with real | real
    · exact ⟨_, List.mem_append_left _ (List.mem_map.2 ⟨f, real, rfl⟩), undissolved⟩
    · exact ⟨_, List.mem_append_right _ (List.mem_map.2 ⟨f, real, rfl⟩), undissolved⟩
  have smaller := factorSize_gather_lt (t := ⟨t.numerator, t.denominator, [], []⟩) waiting
  have same : t.rebuilt.factorSize = t.factorSize := by
    rw [factorSize_eq, factorSize_eq, h.factors, h.divisors]
  rw [rebuilt_eq, normal, factorSize_settled] at same
  rw [same, factorSize_eq t] at smaller
  simp only [factorSize, Node.factorSizes] at smaller
  omega

end Term

end SymbolicAlgebra
