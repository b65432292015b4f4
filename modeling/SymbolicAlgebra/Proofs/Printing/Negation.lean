/-
  The sign of a term
  ==================
  A term with the opposite sign is built anew from its real factors: inner terms
  dissolve, negative exponents cross the bar, and the coefficient is multiplied out.
  Under any powers that obey the laws of exponents this changes nothing but the sign
  (**`Term.result_negate`**).

  As long as a term is being built all its factors count, and so does what still
  waits: the product of both is kept by every step (`Term.gather_whole`).
-/
import SymbolicAlgebra.Proofs.Printing.Result
import SymbolicAlgebra.Node.TermSize

namespace SymbolicAlgebra

variable {α : Type} [FieldScalar α] {s : Scope α}

/-! ### Factors on a side of the bar -/

namespace Factor

/-- What a factor above or below the bar multiplies by. -/
def part (s : Scope α) (p : Factor (Node α) × Bool) : α :=
  if p.2 then p.1.result s else (p.1.result s)⁻¹

/-- What some factors multiply by. -/
def parts (s : Scope α) (ps : List (Factor (Node α) × Bool)) : α := (ps.map (part s)).prod

/-- The factor has a result on its side of the bar. -/
def Pends (s : Scope α) (p : Factor (Node α) × Bool) : Prop :=
  p.1.Computable s ∧ (p.2 = false → p.1.result s ≠ 0)

/-- The factor on the other side of the bar. -/
def flip (p : Factor (Node α) × Bool) : Factor (Node α) × Bool := (p.1, !p.2)

@[simp] theorem parts_nil : parts s ([] : List (Factor (Node α) × Bool)) = 1 := rfl

@[simp] theorem parts_cons (p : Factor (Node α) × Bool) (ps : List (Factor (Node α) × Bool)) :
    parts s (p :: ps) = part s p * parts s ps := List.prod_cons

@[simp] theorem parts_append (ps qs : List (Factor (Node α) × Bool)) :
    parts s (ps ++ qs) = parts s ps * parts s qs := by
  rw [parts, List.map_append, List.prod_append]
  rfl

theorem parts_above (fs : List (Factor (Node α))) :
    parts s (fs.map (·, true)) = (fs.map (Factor.result s)).prod := by
  rw [parts, List.map_map]
  rfl

theorem parts_flip (ps : List (Factor (Node α) × Bool)) :
    parts s (ps.map flip) = (parts s ps)⁻¹ := by
  induction ps with
  | nil => rw [List.map_nil, parts_nil, inv_one]
  | cons p ps ih =>
    obtain ⟨f, above⟩ := p
    rw [List.map_cons, parts_cons, parts_cons, ih, mul_inv]
    cases above <;> simp [part, flip]

theorem parts_below (fs : List (Factor (Node α))) :
    parts s (fs.map (·, false)) = ((fs.map (Factor.result s)).prod)⁻¹ := by
  rw [← parts_above, ← parts_flip, List.map_map]
  rfl

end Factor

/-! ### Terms while they are built -/

namespace Term

/-- The factors of the term, real or not, with the side they stand on. -/
def listed (t : Term α (Node α)) : List (Factor (Node α) × Bool) :=
  t.factors.map (·, true) ++ t.divisors.map (·, false)

/-- What the term comes to with all its factors. -/
def whole (s : Scope α) (t : Term α (Node α)) : α :=
  t.numerator / t.denominator * Factor.parts s t.listed

/-- All factors of the term have results. -/
def Sound (s : Scope α) (t : Term α (Node α)) : Prop :=
  t.denominator ≠ 0 ∧ ∀ p ∈ t.listed, Factor.Pends s p

omit [FieldScalar α] in
theorem listed_push [Scalar α] (t : Term α (Node α)) (above : Bool) (f : Factor (Node α)) :
    (t.push above f).listed.Perm ((f, above) :: t.listed) := by
  cases above with
  | true => simp [listed, push]
  | false =>
    rw [listed, push, if_neg Bool.false_ne_true, List.map_append, ← List.append_assoc]
    exact List.perm_append_singleton _ _

theorem push_whole {t : Term α (Node α)} {f : Factor (Node α)} {above : Bool} (h : t.Sound s)
    (pends : Factor.Pends s (f, above)) :
    (t.push above f).Sound s ∧ (t.push above f).whole s = t.whole s * Factor.part s (f, above) := by
  have kept : (t.push above f).numerator = t.numerator ∧
      (t.push above f).denominator = t.denominator := by
    cases above <;> exact ⟨rfl, rfl⟩
  have order := listed_push t above f
  refine ⟨⟨kept.2 ▸ h.1, fun p hp => ?_⟩, ?_⟩
  · rcases List.mem_cons.1 (order.mem_iff.1 hp) with rfl | hp
    · exact pends
    · exact h.2 p hp
  · rw [whole, kept.1, kept.2, Factor.parts, (order.map _).prod_eq, List.map_cons, List.prod_cons,
      whole, Factor.parts]
    ring

theorem rescale_whole {t : Term α (Node α)} (h : t.Sound s) (x : α) {y : α} (nonzero : y ≠ 0) :
    Term.Sound s { t with numerator := t.numerator * x, denominator := t.denominator * y } ∧
      Term.whole s { t with numerator := t.numerator * x, denominator := t.denominator * y } =
        t.whole s * (x / y) := by
  refine ⟨⟨mul_ne_zero h.1 nonzero, h.2⟩, ?_⟩
  rw [whole, whole, mul_div_mul_comm]
  exact mul_right_comm _ _ _

theorem negated_whole {t : Term α (Node α)} (h : t.Sound s) :
    Term.Sound s { t with numerator := -t.numerator } ∧
      Term.whole s { t with numerator := -t.numerator } = -t.whole s := by
  have scaled := rescale_whole h (-1) (one_ne_zero (α := α))
  simp only [mul_one, div_one, mul_neg_one] at scaled
  exact scaled

theorem scale_whole {t : Term α (Node α)} (h : t.Sound s) {x : α} {above : Bool}
    (nonzero : above = false → x ≠ 0) :
    (t.scale above x).Sound s ∧
      (t.scale above x).whole s = t.whole s * (if above then x else x⁻¹) := by
  cases above with
  | true =>
    have scaled := rescale_whole h x (one_ne_zero (α := α))
    simp only [mul_one, div_one] at scaled
    exact scaled
  | false =>
    have scaled := rescale_whole h 1 (nonzero rfl)
    simp only [mul_one, one_div] at scaled
    exact scaled

theorem scaleBy_whole {t u : Term α (Node α)} (h : t.Sound s) (denominator : u.denominator ≠ 0)
    {above : Bool} (numerator : above = false → u.numerator ≠ 0) :
    (t.scaleBy above u).Sound s ∧ (t.scaleBy above u).whole s =
      t.whole s * (if above then u.numerator / u.denominator else u.denominator / u.numerator) := by
  cases above with
  | true => exact rescale_whole h u.numerator denominator
  | false => exact rescale_whole h u.denominator (numerator rfl)

variable [LawfulScalar α]

/-- A name with a sign: the sign of an odd power goes into the coefficient. -/
theorem unsigned_whole {t : Term α (Node α)} {named bare : Node α} {x : α} {above : Bool}
    (h : t.Sound s) (pends : Factor.Pends s (⟨named, .number x⟩, above))
    (integral : Scalar.isWhole x = true) (opposite : named.result s = -bare.result s)
    (computable : bare.Computable s) :
    let flipped := if Scalar.isOdd x then { t with numerator := -t.numerator } else t
    (flipped.push above ⟨bare, .number x⟩).Sound s ∧
      (flipped.push above ⟨bare, .number x⟩).whole s =
        t.whole s * Factor.part s (⟨named, .number x⟩, above) := by
  intro flipped
  obtain ⟨-, -, raises⟩ := Factor.computable_iff.1 pends.1
  have exponent : (Node.number x).result s = x := by rw [Node.result]
  have sign : Factor.result s ⟨named, .number x⟩ =
      if Scalar.isOdd x then -Factor.result s ⟨bare, .number x⟩
      else Factor.result s ⟨bare, .number x⟩ := by
    rw [Factor.result_eq, Factor.result_eq, opposite, exponent, LawfulScalar.neg_power _ x integral]
  have power : Factor.Computable s ⟨bare, .number x⟩ := by
    refine Factor.computable_iff.2 ⟨computable, .number x, ⟨fun zero => ?_, fun _ => ?_, ?_⟩⟩
    · exact raises.defined (by rw [opposite, show bare.result s = 0 from zero, neg_zero])
    · rwa [exponent]
    · exact fun _ _ => rfl
  have remains : Factor.Pends s (⟨bare, .number x⟩, above) := by
    refine ⟨power, fun below zero => pends.2 below ?_⟩
    rw [sign]
    split
    · exact neg_eq_zero.2 zero
    · exact zero
  by_cases odd : Scalar.isOdd x = true
  · have turned : flipped = { t with numerator := -t.numerator } := if_pos odd
    rw [if_pos odd] at sign
    obtain ⟨sound, value⟩ := push_whole (negated_whole h).1 remains
    rw [turned]
    refine ⟨sound, ?_⟩
    rw [value, (negated_whole h).2, Factor.part, Factor.part, sign]
    cases above <;> simp [inv_neg]
  · have same : flipped = t := if_neg odd
    rw [if_neg odd] at sign
    obtain ⟨sound, value⟩ := push_whole h remains
    rw [same]
    refine ⟨sound, ?_⟩
    rw [value, Factor.part, Factor.part, sign]

theorem multiplyBy_whole {t : Term α (Node α)} {f : Factor (Node α)} {above : Bool} (h : t.Sound s)
    (pends : Factor.Pends s (f, above)) :
    (t.multiplyBy above f).Sound s ∧
      (t.multiplyBy above f).whole s = t.whole s * Factor.part s (f, above) := by
  obtain ⟨base, exponent⟩ := f
  unfold multiplyBy
  dsimp only
  split
  · rename_i b x
    have computed : Factor.result s ⟨.number b, .number x⟩ = Scalar.power b x := by
      rw [Factor.result_eq, Node.result, Node.result]
    rw [Factor.part, computed]
    exact scale_whole h fun below => computed ▸ pends.2 below
  · rename_i v x
    split
    · rename_i integral
      refine unsigned_whole h pends integral ?_ ?_
      · rw [Node.result, Node.result]
        rfl
      · cases (Factor.computable_iff.1 pends.1).1 with
        | var _ _ y bound other => exact .var v false y bound other
    · exact push_whole h pends
  · rename_i c x
    split
    · rename_i integral
      refine unsigned_whole h pends integral ?_ ?_
      · rw [Node.result, Node.result]
        rfl
      · cases (Factor.computable_iff.1 pends.1).1 with
        | constant _ _ collapsed => exact .constant c false collapsed
    · exact push_whole h pends
  · exact push_whole h pends

/-- A negative exponent stands for the opposite power beyond the bar. -/
theorem crossed_part {base : Node α} {x : α} {above : Bool}
    (pends : Factor.Pends s (⟨base, .number x⟩, above)) (negative : Scalar.lt x 0 = true) :
    Factor.Pends s (⟨base, .number (-x)⟩, !above) ∧
      Factor.part s (⟨base, .number (-x)⟩, !above) = Factor.part s (⟨base, .number x⟩, above) := by
  obtain ⟨computable, -, raises⟩ := Factor.computable_iff.1 pends.1
  have exponent : ∀ y : α, (Node.number y).result s = y := fun y => by rw [Node.result]
  have nonzero : base.result s ≠ 0 := by
    intro zero
    have allowed := raises.defined zero
    rw [exponent] at allowed
    simp [negative] at allowed
  have real : Scalar.lt (base.result s) 0 = true → Scalar.isWhole x = true := by
    have shown := raises.real
    rwa [exponent] at shown
  have inverse : Factor.result s ⟨base, .number (-x)⟩ * Factor.result s ⟨base, .number x⟩ = 1 := by
    rw [Factor.result_eq, Factor.result_eq, exponent, exponent]
    exact LawfulScalar.power_neg_mul _ x nonzero real
  have power : Factor.Computable s ⟨base, .number (-x)⟩ := by
    refine Factor.computable_iff.2 ⟨computable, .number _, ⟨?_, fun below => ?_, ?_⟩⟩
    · exact fun zero => absurd zero nonzero
    · rw [exponent]
      exact LawfulScalar.isWhole_neg x (real below)
    · exact fun zero => absurd zero nonzero
  refine ⟨⟨power, fun _ => left_ne_zero_of_mul_eq_one inverse⟩, ?_⟩
  rw [Factor.part, Factor.part, eq_inv_of_mul_eq_one_left inverse]
  cases above <;> simp

theorem absorb_whole {t : Term α (Node α)} {f : Factor (Node α)} {above : Bool} (h : t.Sound s)
    (pends : Factor.Pends s (f, above)) :
    (t.absorb above f).Sound s ∧
      (t.absorb above f).whole s = t.whole s * Factor.part s (f, above) := by
  obtain ⟨base, exponent⟩ := f
  unfold absorb
  dsimp only
  split
  · split
    · rename_i x negative
      obtain ⟨crossed, same⟩ := crossed_part pends negative
      rw [FieldScalar.ofValue_eq, ← same]
      exact multiplyBy_whole h crossed
    · exact multiplyBy_whole h pends
  · exact multiplyBy_whole h pends

/-! ### Inner terms -/

omit [LawfulScalar α] in
/-- A term is its coefficient times its real factors, on either side of the bar. -/
theorem result_sides (u : Term α (Node α)) (above : Bool) :
    (if above then u.numerator / u.denominator else u.denominator / u.numerator) *
        Factor.parts s (u.sides above) = if above then u.result s else (u.result s)⁻¹ := by
  rw [result_eq, sides, Factor.parts_append]
  cases above with
  | true =>
    simp only [if_true, Bool.not_true, Factor.parts_above, Factor.parts_below]
    ring
  | false =>
    simp only [Bool.false_eq_true, if_false, Bool.not_false, Factor.parts_above,
      Factor.parts_below, inv_div]
    ring

omit [LawfulScalar α] in
theorem pends_sides {u : Term α (Node α)} (h : u.Computable s) {above : Bool}
    (nonzero : above = false → u.result s ≠ 0) :
    (∀ p ∈ u.sides above, Factor.Pends s p) ∧ (above = false → u.numerator ≠ 0) := by
  obtain ⟨-, factors, divisors, below⟩ := computable_iff.1 h
  have upper : above = false →
      u.numerator ≠ 0 ∧ (u.realFactors.map (Factor.result s)).prod ≠ 0 := by
    intro under
    have whole := nonzero under
    rw [result_eq] at whole
    have product := left_ne_zero_of_mul (div_eq_mul_inv (G := α) _ _ ▸ whole)
    exact ⟨left_ne_zero_of_mul product, right_ne_zero_of_mul product⟩
  refine ⟨fun p hp => ?_, fun under => (upper under).1⟩
  rcases List.mem_append.1 hp with hp | hp
  · obtain ⟨f, hf, rfl⟩ := List.mem_map.1 hp
    refine ⟨factors f hf, fun under zero => (upper under).2 ?_⟩
    exact List.prod_eq_zero (List.mem_map.2 ⟨f, hf, zero⟩)
  · obtain ⟨f, hf, rfl⟩ := List.mem_map.1 hp
    exact ⟨divisors f hf, fun _ => below f hf⟩

omit [LawfulScalar α] in
/-- An inner term gives its coefficient to the term and its factors to what waits. -/
theorem spliced_whole {t u : Term α (Node α)} {above : Bool}
    {rest : List (Factor (Node α) × Bool)} (h : t.Sound s) (inner : u.Computable s)
    (nonzero : above = false → u.result s ≠ 0) (later : ∀ p ∈ rest, Factor.Pends s p) :
    (t.scaleBy above u).Sound s ∧ (∀ p ∈ rest ++ u.sides above, Factor.Pends s p) ∧
      (t.scaleBy above u).whole s * Factor.parts s (rest ++ u.sides above) =
        t.whole s * ((if above then u.result s else (u.result s)⁻¹) * Factor.parts s rest) := by
  obtain ⟨dissolved, numerator⟩ := pends_sides inner nonzero
  obtain ⟨scaled, value⟩ := scaleBy_whole h (computable_iff.1 inner).1 numerator
  refine ⟨scaled, List.forall_mem_append.2 ⟨later, dissolved⟩, ?_⟩
  rw [value, Factor.parts_append, ← result_sides u above]
  ring

/-! ### One factor after the other -/

theorem result_of_isUnit {f : Factor (Node α)} (unit : f.exponent.isUnit = true) :
    f.result s = f.base.result s := by
  rw [Factor.result_eq, Node.result_unit unit, LawfulScalar.power_one]

/-- Multiplying by all that waits. -/
theorem gather_whole {ps : List (Factor (Node α) × Bool)} {t : Term α (Node α)} (h : t.Sound s)
    (pends : ∀ p ∈ ps, Factor.Pends s p) :
    (gather ps t).Sound s ∧ (gather ps t).whole s = t.whole s * Factor.parts s ps := by
  fun_induction gather ps t with
  | case1 t => exact ⟨h, by rw [Factor.parts_nil, mul_one]⟩
  | case2 t base exponent above rest zero ih =>
    obtain ⟨first, later⟩ := List.forall_mem_cons.1 pends
    obtain ⟨sound, value⟩ := ih h later
    have one : Factor.result s ⟨base, exponent⟩ = 1 := by
      have vanishes := (Node.result_of_shown (Factor.computable_iff.1 first.1).2.1).2 zero
      rw [Factor.result_eq, vanishes, LawfulScalar.power_zero]
    refine ⟨sound, ?_⟩
    rw [value, Factor.parts_cons, Factor.part, one]
    simp
  | case3 t exponent above rest real unit u ih =>
    obtain ⟨first, later⟩ := List.forall_mem_cons.1 pends
    have same : Factor.result s ⟨.product u, exponent⟩ = u.result s := result_of_isUnit unit
    obtain ⟨scaled, waiting, value⟩ := spliced_whole h (Factor.computable_iff.1 first.1).1
      (fun below => same ▸ first.2 below) later
    obtain ⟨sound, final⟩ := ih scaled waiting
    refine ⟨sound, ?_⟩
    rw [final, value, Factor.parts_cons, Factor.part, same]
  | case4 t exponent above rest real unit u ih =>
    obtain ⟨first, later⟩ := List.forall_mem_cons.1 pends
    have same : Factor.result s ⟨.sum [u], exponent⟩ = u.result s := by
      rw [result_of_isUnit unit, Node.result_sum, List.map_cons, List.map_nil, List.sum_cons,
        List.sum_nil, add_zero]
    have inner := Node.computable_sum.1 (Factor.computable_iff.1 first.1).1 u List.mem_cons_self
    obtain ⟨scaled, waiting, value⟩ := spliced_whole h inner
      (fun below => same ▸ first.2 below) later
    obtain ⟨sound, final⟩ := ih scaled waiting
    refine ⟨sound, ?_⟩
    rw [final, value, Factor.parts_cons, Factor.part, same]
  | case5 t exponent above rest real unit f ih =>
    obtain ⟨first, later⟩ := List.forall_mem_cons.1 pends
    have same : Factor.result s ⟨.power f, exponent⟩ = f.result s := result_of_isUnit unit
    have waiting : ∀ p ∈ rest ++ [(f, above)], Factor.Pends s p := by
      refine List.forall_mem_append.2 ⟨later, List.forall_mem_singleton.2 ?_⟩
      exact ⟨(Factor.computable_iff.1 first.1).1, fun below => same ▸ first.2 below⟩
    obtain ⟨sound, final⟩ := ih h waiting
    refine ⟨sound, ?_⟩
    rw [final, Factor.parts_append, Factor.parts_cons, Factor.parts_cons, Factor.parts_nil, mul_one,
      Factor.part, Factor.part, same, mul_comm (Factor.parts s rest)]
  | case6 t exponent above rest real unit base product single power ih =>
    obtain ⟨first, later⟩ := List.forall_mem_cons.1 pends
    obtain ⟨absorbed, step⟩ := absorb_whole h first
    obtain ⟨sound, final⟩ := ih absorbed later
    refine ⟨sound, ?_⟩
    rw [final, step, Factor.parts_cons, mul_assoc]
  | case7 t base exponent above rest real unit ih =>
    obtain ⟨first, later⟩ := List.forall_mem_cons.1 pends
    obtain ⟨absorbed, step⟩ := absorb_whole h first
    obtain ⟨sound, final⟩ := ih absorbed later
    refine ⟨sound, ?_⟩
    rw [final, step, Factor.parts_cons, mul_assoc]

/-! ### Built terms -/

/-- Factors that are certainly one make no difference. -/
theorem prod_real {fs : List (Factor (Node α))} (each : ∀ f ∈ fs, f.Computable s) :
    ((SymbolicAlgebra.realFactors fs).map (Factor.result s)).prod =
      (fs.map (Factor.result s)).prod := by
  induction fs with
  | nil => rfl
  | cons f fs ih =>
    obtain ⟨first, rest⟩ := List.forall_mem_cons.1 each
    by_cases shown : f.isOne = true
    · have one : f.result s = 1 := (Node.result_of_shown first).1 (by
        rw [Node.isOne]
        exact shown)
      rw [realFactors_of_one shown, ih rest, List.map_cons, List.prod_cons, one, one_mul]
    · rw [realFactors_of_real shown, List.map_cons, List.map_cons, List.prod_cons, List.prod_cons,
        ih rest]

/-- A term that is sound while it is built is computable, and none of its factors is lost. -/
theorem Sound.computable {t : Term α (Node α)} (h : t.Sound s) :
    t.Computable s ∧ t.result s = t.whole s := by
  obtain ⟨denominator, pends⟩ := h
  obtain ⟨upper, lower⟩ := List.forall_mem_append.1 pends
  rw [List.forall_mem_map] at upper lower
  have factors : ∀ f ∈ t.factors, f.Computable s := fun f hf => (upper f hf).1
  have divisors : ∀ g ∈ t.divisors, g.Computable s := fun g hg => (lower g hg).1
  constructor
  · refine computable_iff.2 ⟨denominator, ?_, ?_, ?_⟩
    · exact fun f hf => factors f (List.mem_filter.1 hf).1
    · exact fun g hg => divisors g (List.mem_filter.1 hg).1
    · exact fun g hg => (lower g (List.mem_filter.1 hg).1).2 rfl
  · rw [result_eq, realFactors, realDivisors, prod_real factors, prod_real divisors, whole, listed,
      Factor.parts_append, Factor.parts_above, Factor.parts_below]
    ring

theorem pends_empty (above : Bool) : Factor.Pends s ((Factor.empty : Factor (Node α)), above) := by
  have one : (Factor.empty : Factor (Node α)).base.result s = 1 := by
    rw [Factor.empty, Node.result]
  have raises : (Factor.empty : Factor (Node α)).Raises s := by
    refine ⟨fun zero => ?_, fun _ => ?_, fun _ _ => rfl⟩
    · exact absurd (one.symm.trans zero) one_ne_zero
    · rw [one] at *
      simp_all [LawfulScalar.one_lt_zero]
  refine ⟨Factor.computable_iff.2 ⟨.number 1, .number 0, raises⟩, fun _ => ?_⟩
  rw [Factor.result_eq, one, LawfulScalar.one_power]
  exact one_ne_zero

/-- An empty product counts as one. -/
theorem filled_parts {fs : List (Factor (Node α))} {above : Bool}
    (pends : ∀ p ∈ fs.map (·, above), Factor.Pends s p) :
    let filled := if fs.isEmpty then [Factor.empty] else fs
    (∀ p ∈ filled.map (·, above), Factor.Pends s p) ∧
      Factor.parts s (filled.map (·, above)) = Factor.parts s (fs.map (·, above)) := by
  intro filled
  cases fs with
  | nil =>
    have one : (Factor.empty : Factor (Node α)).result s = 1 := by
      rw [Factor.result_eq, Factor.empty, Node.result, LawfulScalar.one_power]
    refine ⟨List.forall_mem_singleton.2 (pends_empty above), ?_⟩
    show Factor.parts s [(Factor.empty, above)] = Factor.parts s []
    rw [Factor.parts_cons, Factor.parts_nil, Factor.part, one]
    simp
  | cons f fs => exact ⟨pends, rfl⟩

theorem settled_whole {t : Term α (Node α)} (h : t.Sound s) :
    t.settled.Sound s ∧ t.settled.whole s = t.whole s := by
  obtain ⟨denominator, pends⟩ := h
  obtain ⟨upper, lower⟩ := List.forall_mem_append.1 pends
  obtain ⟨above, product⟩ := filled_parts upper
  obtain ⟨below, quotient⟩ := filled_parts lower
  unfold settled
  dsimp only
  split
  · refine ⟨⟨neg_ne_zero.2 denominator, List.forall_mem_append.2 ⟨above, below⟩⟩, ?_⟩
    simp only [whole, listed, Factor.parts_append, product, quotient, neg_div_neg_eq]
  · refine ⟨⟨denominator, List.forall_mem_append.2 ⟨above, below⟩⟩, ?_⟩
    simp only [whole, listed, Factor.parts_append, product, quotient]

/-- A built term is the fraction it is built from. -/
theorem normal_whole {n d : α} {fs gs : List (Factor (Node α))} (denominator : d ≠ 0)
    (above : ∀ f ∈ fs, f.Computable s) (below : ∀ g ∈ gs, g.Computable s ∧ g.result s ≠ 0) :
    (normal n d fs gs).Sound s ∧ (normal n d fs gs).whole s =
      n * (fs.map (Factor.result s)).prod / (d * (gs.map (Factor.result s)).prod) := by
  have start : Term.Sound s ⟨n, d, [], []⟩ := ⟨denominator, List.forall_mem_nil _⟩
  have pends : ∀ p ∈ fs.map (·, true) ++ gs.map (·, false), Factor.Pends s p := by
    rw [List.forall_mem_append, List.forall_mem_map, List.forall_mem_map]
    refine ⟨fun f hf => ⟨above f hf, fun under => ?_⟩, fun g hg => ?_⟩
    · cases under
    · exact ⟨(below g hg).1, fun _ => (below g hg).2⟩
  obtain ⟨gathered, value⟩ := gather_whole start pends
  obtain ⟨sound, same⟩ := settled_whole gathered
  refine ⟨sound, ?_⟩
  rw [normal, same, value, Factor.parts_append, Factor.parts_above, Factor.parts_below]
  simp only [whole, listed, List.map_nil, List.append_nil, Factor.parts_nil]
  ring

/-- A product comes to the product of what its factors come to. -/
theorem result_times {t u : Term α (Node α)} (ht : t.Computable s) (hu : u.Computable s) :
    (t.times u).Computable s ∧ (t.times u).result s = t.result s * u.result s := by
  obtain ⟨denominator, factors, divisors, nonzero⟩ := computable_iff.1 ht
  obtain ⟨denominator', factors', divisors', nonzero'⟩ := computable_iff.1 hu
  have below : ∀ g ∈ t.realDivisors ++ u.realDivisors, g.Computable s ∧ g.result s ≠ 0 := by
    refine List.forall_mem_append.2 ⟨fun g hg => ?_, fun g hg => ?_⟩
    · exact ⟨divisors g hg, nonzero g hg⟩
    · exact ⟨divisors' g hg, nonzero' g hg⟩
  obtain ⟨sound, value⟩ := normal_whole (n := t.numerator * u.numerator)
    (mul_ne_zero denominator denominator') (List.forall_mem_append.2 ⟨factors, factors'⟩) below
  obtain ⟨computable, whole⟩ := sound.computable
  refine ⟨computable, ?_⟩
  rw [times, whole, value, List.map_append, List.map_append, List.prod_append, List.prod_append,
    result_eq, result_eq]
  ring

theorem result_minusOne : (wrap (Node.ofValue (-1) : Node α)).Computable s ∧
    (wrap (Node.ofValue (-1) : Node α)).result s = -1 := by
  have base : (Node.number (-1) : Node α).result s = -1 := by rw [Node.result]
  have exponent : (Node.number 1 : Node α).result s = 1 := by rw [Node.result]
  have raises : (⟨.number (-1), .number 1⟩ : Factor (Node α)).Raises s := by
    refine ⟨fun zero => ?_, fun _ => ?_, fun _ _ => rfl⟩
    · exact absurd (base.symm.trans zero) (neg_ne_zero.2 one_ne_zero)
    · rw [exponent]
      exact LawfulScalar.isWhole_one
  have factor : (⟨.number (-1), .number 1⟩ : Factor (Node α)).Computable s :=
    Factor.computable_iff.2 ⟨.number _, .number _, raises⟩
  have none : ∀ g ∈ ([] : List (Factor (Node α))), g.Computable s ∧ g.result s ≠ 0 :=
    List.forall_mem_nil _
  obtain ⟨sound, value⟩ := normal_whole (n := 1) one_ne_zero
    (List.forall_mem_singleton.2 factor) none
  obtain ⟨computable, whole⟩ := sound.computable
  rw [FieldScalar.ofValue_eq]
  refine ⟨computable, whole.trans (value.trans ?_)⟩
  simp [Factor.result_eq, base, exponent, LawfulScalar.power_one]

/-- Turning the sign of a term turns the sign of what it comes to. -/
theorem result_negate {t : Term α (Node α)} (h : t.Computable s) :
    t.negate.Computable s ∧ t.negate.result s = -t.result s := by
  obtain ⟨minusOne, opposite⟩ := result_minusOne (s := s)
  obtain ⟨computable, value⟩ := result_times h minusOne
  refine ⟨computable, ?_⟩
  rw [negate, value, opposite, mul_neg_one]

end Term

end SymbolicAlgebra
