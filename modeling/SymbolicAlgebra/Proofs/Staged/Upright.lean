/-
  Upright expressions
  ===================
  An expression is upright when every exponent inside it is a positive whole number, and
  the exponent of a power that stands by itself, or is the argument of a call, any whole
  number. This is what arithmetic makes of powers with whole numbers as exponents
  (`Node.Upright.carries`): a negative exponent crosses the bar when the power becomes a
  factor, and one that is zero leaves nothing behind.

  Two facts about upright expressions are used below. A factor that is certainly one
  holds no variable (**`Node.Upright.isConstant_of_isOne`**), so every variable counts;
  and a term built from upright factors has stable ones (**`Term.normal_stable`**), so
  upright results can be added.
-/
import SymbolicAlgebra.Proofs.Value.Arithmetic
import SymbolicAlgebra.Proofs.CarryOver.Evaluation

namespace SymbolicAlgebra

variable {α : Type} [FieldScalar α]

/-- The exponents of the powers that may stand in a place. -/
def Place.Allows : Place → Node α → Prop
  | .alone, e => ∃ z : ℤ, e = .number (z : α)
  | .inside, e => ∃ z : ℤ, 0 < z ∧ e = .number (z : α)

/-- Every power has an exponent that its place allows; constants occur only if they may. -/
inductive Node.Upright (constants : Prop) : Place → Node α → Prop
  | number (p : Place) (x : α) : Upright constants p (.number x)
  | constant (p : Place) (c : Constant) (negative : Bool) (allowed : constants) :
    Upright constants p (.constant c negative)
  | var (p : Place) (v : Variable) (negative : Bool) : Upright constants p (.var v negative)
  | power (p : Place) (f : Factor (Node α)) (base : Upright constants .inside f.base)
    (exponent : p.Allows f.exponent) : Upright constants p (.power f)
  | product (p : Place) (t : Term α (Node α))
    (factors : ∀ f ∈ t.factors, f ≠ Factor.empty → Upright constants .inside (.power f))
    (divisors : ∀ g ∈ t.divisors, g ≠ Factor.empty → Upright constants .inside (.power g)) :
    Upright constants p (.product t)
  | sum (p : Place) (ts : List (Term α (Node α)))
    (terms : ∀ t ∈ ts, Upright constants .inside (.product t)) : Upright constants p (.sum ts)
  | unary (p : Place) (f : Unary) (x : Node α) (argument : Upright constants .alone x) :
    Upright constants p (.unary f x)
  | binary (p : Place) (f : Binary) (x y : Node α) (left : Upright constants .alone x)
    (right : Upright constants .alone y) : Upright constants p (.binary f x y)

variable {C : Prop} {p : Place}

namespace Node

theorem upright_power {f : Factor (Node α)} :
    (Node.power f).Upright C p ↔ f.base.Upright C .inside ∧ p.Allows f.exponent := by
  constructor
  · intro h
    cases h with
    | power _ _ base exponent => exact ⟨base, exponent⟩
  · rintro ⟨base, exponent⟩
    exact .power p f base exponent

theorem upright_product {t : Term α (Node α)} : (Node.product t).Upright C p ↔
    (∀ f ∈ t.factors, f ≠ Factor.empty → (Node.power f).Upright C .inside) ∧
      ∀ g ∈ t.divisors, g ≠ Factor.empty → (Node.power g).Upright C .inside := by
  constructor
  · intro h
    cases h with
    | product _ _ factors divisors => exact ⟨factors, divisors⟩
  · rintro ⟨factors, divisors⟩
    exact .product p t factors divisors

theorem upright_sum {ts : List (Term α (Node α))} :
    (Node.sum ts).Upright C p ↔ ∀ t ∈ ts, (Node.product t).Upright C .inside := by
  constructor
  · intro h
    cases h with
    | sum _ _ terms => exact terms
  · exact .sum p ts

theorem upright_exponent {e : Node α} :
    Place.Exponent (fun p n => n.Upright C p) p e ↔ p.Allows e :=
  upright_power.trans (and_iff_right (.number _ _))

end Node

/-! ### Exponents -/

namespace Place

variable {e : Node α}

theorem Allows.exists_cast (h : p.Allows e) : ∃ z : ℤ, e = .number (z : α) := by
  cases p with
  | alone => exact h
  | inside =>
    obtain ⟨z, -, rfl⟩ := h
    exact ⟨z, rfl⟩

theorem allows_cast {z : ℤ} (positive : 0 < z) : p.Allows (.number (z : α)) := by
  cases p with
  | alone => exact ⟨z, rfl⟩
  | inside => exact ⟨z, positive, rfl⟩

end Place

section Exact

variable [ExactScalar α]

theorem Place.Allows.isZero_inside {e : Node α} (h : Place.inside.Allows e) : e.isZero = false := by
  obtain ⟨z, positive, rfl⟩ := h
  have nonzero : ((z : ℤ) : α) ≠ 0 := by exact_mod_cast positive.ne'
  simpa [Node.isZero] using nonzero

/-- Arithmetic on upright expressions is upright. -/
instance Node.Upright.carries : CarriesToSums (fun p (n : Node α) => n.Upright C p) where
  number := .number _
  constant h negative' := by
    cases h with
    | constant _ _ _ allowed => exact .constant _ _ _ allowed
  var _ _ := .var _ _ _
  power := upright_power.trans (and_congr_right fun _ => upright_exponent.symm)
  product above below := by
    refine .product _ _ (fun f hf real => ?_) fun g hg real => ?_
    · exact (above f hf).resolve_left real
    · exact (below g hg).resolve_left real
  factors h := by
    obtain ⟨above, below⟩ := upright_product.1 h
    refine ⟨fun f hf => ?_, fun g hg => ?_⟩
    · obtain ⟨member, real⟩ := List.mem_filter.1 hf
      exact above f member (Factor.ne_empty_of_real (by simpa using real))
    · obtain ⟨member, real⟩ := List.mem_filter.1 hg
      exact below g member (Factor.ne_empty_of_real (by simpa using real))
  terms := upright_sum.1
  sum _ := upright_sum.2
  unary := by
    intro p f x
    constructor
    · intro h
      cases h with
      | unary _ _ _ argument => exact argument
    · exact .unary p f x
  binary := by
    intro p f x y
    constructor
    · intro h
      cases h with
      | binary _ _ _ _ left right => exact ⟨left, right⟩
    · rintro ⟨left, right⟩
      exact .binary p f x y left right
  moved other h := by
    cases h with
    | number _ x => exact .number _ x
    | constant _ c negative allowed => exact .constant _ c negative allowed
    | var _ v negative => exact .var _ v negative
    | power _ f _ _ => exact absurd rfl (other f)
    | product _ t above below => exact .product _ t above below
    | sum _ ts terms => exact .sum _ ts terms
    | unary _ f x argument => exact .unary _ f x argument
    | binary _ f x y left right => exact .binary _ f x y left right
  exponent h := by
    obtain ⟨z, rfl⟩ := (upright_exponent.1 h).exists_cast
    exact .number _ _
  exposed h := upright_exponent.2 (upright_exponent.1 h).exists_cast
  one := by
    have positive := Place.allows_cast (α := α) (p := .inside) one_pos
    rw [Int.cast_one] at positive
    exact upright_exponent.2 positive
  two := by
    rw [ExactScalar.ofInt_cast]
    exact upright_exponent.2 (Place.allows_cast two_pos)
  vanished {p e} h zero := by
    refine upright_exponent.2 ?_
    cases p with
    | alone => exact ⟨0, by rw [Int.cast_zero]⟩
    | inside => rw [(upright_exponent.1 h).isZero_inside] at zero; cases zero
  rewritten h _ same := by
    have allowed := upright_exponent.1 h
    obtain ⟨z, rfl⟩ := allowed.exists_cast
    rw [same _ rfl]
    exact h
  crossed h negative := by
    obtain ⟨z, same⟩ := upright_exponent.1 h
    cases same
    rw [← Int.cast_zero, ExactScalar.lt_cast] at negative
    rw [FieldScalar.ofValue_eq, ← Int.cast_neg]
    exact upright_exponent.2 (Place.allows_cast (by have := of_decide_eq_true negative; omega))
  entered h real positive := by
    obtain ⟨z, rfl⟩ := upright_exponent.1 h
    have nonnegative := positive _ rfl
    rw [← Int.cast_zero, ExactScalar.lt_cast] at nonnegative
    have nonzero : z ≠ 0 := by
      rintro rfl
      simp [Node.isZero] at real
    refine upright_exponent.2 (Place.allows_cast ?_)
    have := of_decide_eq_false nonnegative
    omega
  added hm hn _ sum := by
    obtain ⟨v, left, rfl⟩ := upright_exponent.1 hm
    obtain ⟨w, right, rfl⟩ := upright_exponent.1 hn
    rw [sum _ _ rfl rfl, FieldScalar.ofValue_eq, ← Int.cast_add]
    exact upright_exponent.2 (Place.allows_cast (by omega))
  cancelled hx hy less := by
    obtain ⟨v, left, same⟩ := upright_exponent.1 hx
    cases same
    obtain ⟨w, right, same⟩ := upright_exponent.1 hy
    cases same
    rw [ExactScalar.lt_cast] at less
    rw [FieldScalar.ofValue_eq, ← Int.cast_sub]
    exact upright_exponent.2 (Place.allows_cast (by have := of_decide_eq_true less; omega))
  merged {p f e} h he := by
    obtain ⟨base, exponent⟩ := f
    obtain ⟨inner, outer⟩ := upright_power.1 h
    have allowed := upright_exponent.1 he
    obtain ⟨v, same⟩ := outer.exists_cast
    obtain ⟨w, same'⟩ := allowed.exists_cast
    dsimp only at inner outer same
    subst same same'
    rw [Factor.raised, if_pos (by simp), FieldScalar.ofValue_eq, ← Int.cast_mul]
    refine upright_power.2 ⟨inner, ?_⟩
    cases p with
    | alone => exact ⟨v * w, rfl⟩
    | inside =>
      obtain ⟨v', left, same⟩ := outer
      obtain ⟨w', right, same'⟩ := allowed
      obtain rfl : v = v' := Int.cast_injective (Node.number.inj same)
      obtain rfl : w = w' := Int.cast_injective (Node.number.inj same')
      exact Place.allows_cast (mul_pos left right)

/-! ### Factors that are certainly one -/

/-- What is certainly one inside an upright expression holds no variable. -/
theorem Node.Upright.isConstant_of_isOne {n : Node α} (h : n.Upright C .inside)
    (one : n.isOne = true) : n.isConstant = true := by
  induction n using Node.induction with
  | number x => rfl
  | constant c negative => rfl
  | var v negative => simp [isOne] at one
  | power f base exponent =>
    obtain ⟨upright, allowed⟩ := upright_power.1 h
    rw [isOne, allowed.isZero_inside, Bool.false_or] at one
    obtain ⟨z, -, number⟩ := allowed
    rw [isConstant, base upright one, number]
    rfl
  | product t above below =>
    obtain ⟨upper, lower⟩ := upright_product.1 h
    have side : ∀ {fs : List (Factor (Node α))},
        (∀ f ∈ fs, (Node.power f).Upright C .inside → (Node.power f).isOne = true →
          (Node.power f).isConstant = true) →
        (∀ f ∈ fs, f ≠ Factor.empty → (Node.power f).Upright C .inside) → allOne fs = true →
          allConstant fs = true := by
      intro fs each upright ones
      rw [allOne_eq, List.all_eq_true] at ones
      rw [allConstant_eq, List.all_eq_true]
      intro f hf
      by_cases empty : f = Factor.empty
      · rw [empty]
        rfl
      · exact each f hf (upright f hf empty) (ones f hf)
    rw [isOne, Bool.and_eq_true, Bool.and_eq_true] at one
    rw [isConstant, side above upper one.1.2, side below lower one.2]
    rfl
  | sum ts each =>
    rcases ts with _ | ⟨t, _ | ⟨u, us⟩⟩
    · simp [isOne] at one
    · have single := each t List.mem_cons_self (upright_sum.1 h t List.mem_cons_self) one
      rw [isConstant, allTermsConstant_eq, List.all_cons, single]
      rfl
    · simp [isOne] at one
  | unary f x ih => simp [isOne] at one
  | binary f x y left right => simp [isOne] at one

/-! ### Stable terms -/

namespace Term

variable {t : Term α (Node α)}

namespace Stable

omit [ExactScalar α] in
theorem push (h : t.Stable) {f : Factor (Node α)} (stable : f.Stable) (above : Bool) :
    (t.push above f).Stable := by
  have added : ∀ {fs : List (Factor (Node α))},
      (∀ g ∈ SymbolicAlgebra.realFactors fs, g.Stable) →
        ∀ g ∈ SymbolicAlgebra.realFactors (fs ++ [f]), g.Stable := by
    intro fs each g hg
    rw [SymbolicAlgebra.realFactors, List.filter_append, List.mem_append] at hg
    rcases hg with hg | hg
    · exact each g hg
    · obtain rfl := List.mem_singleton.1 (List.mem_filter.1 hg).1
      exact stable
  cases above
  · exact ⟨h.above, added h.below⟩
  · exact ⟨added h.above, h.below⟩

omit [ExactScalar α] in
theorem recoefficient (h : t.Stable) (n d : α) : Stable ⟨n, d, t.factors, t.divisors⟩ :=
  ⟨h.above, h.below⟩

/-- Of an upright factor that does not dissolve a term gets a stable one. -/
theorem absorb (h : t.Stable) {f : Factor (Node α)} (upright : (Node.power f).Upright C .inside)
    (whole : f.exponent.isUnit = true → f.base.isSpliced = false) (above : Bool) :
    (t.absorb above f).Stable := by
  obtain ⟨base, exponent⟩ := f
  have real := (Node.upright_power.1 upright).2.isZero_inside
  obtain ⟨z, positive, rfl⟩ := (Node.upright_power.1 upright).2
  dsimp only at whole real
  have bounded : Scalar.lt (z : α) 0 = false := by
    rw [← Int.cast_zero, ExactScalar.lt_cast]
    exact decide_eq_false (by omega)
  have stays : ∀ {bare : Node α}, ((Node.number (z : α)).isUnit = true → bare.isSpliced = false) →
      (∀ (t : Term α (Node α)) (above : Bool),
        t.multiplyBy above ⟨bare, .number z⟩ = t.push above ⟨bare, .number z⟩) →
      Factor.Stable ⟨bare, .number z⟩ := by
    intro bare unsplit pushed
    refine stable_of_pushed real unsplit (fun x same => ?_) pushed
    cases same
    exact bounded
  have turned : (if Scalar.isOdd (z : α) = true then { t with numerator := -t.numerator }
      else t).Stable := by
    split
    · exact h.recoefficient _ _
    · exact h
  unfold Term.absorb
  dsimp only
  rw [if_neg (by simp [bounded])]
  cases base with
  | number b =>
    cases above
    · exact h.recoefficient _ _
    · exact h.recoefficient _ _
  | constant c negative =>
    cases negative with
    | true =>
      unfold Term.multiplyBy
      dsimp only
      rw [if_pos (ExactScalar.isWhole_cast z)]
      exact turned.push (stays (fun _ => rfl) fun _ _ => rfl) above
    | false => exact h.push (stays whole fun _ _ => rfl) above
  | var v negative =>
    cases negative with
    | true =>
      unfold Term.multiplyBy
      dsimp only
      rw [if_pos (ExactScalar.isWhole_cast z)]
      exact turned.push (stays (fun _ => rfl) fun _ _ => rfl) above
    | false => exact h.push (stays whole fun _ _ => rfl) above
  | _ => exact h.push (stays whole fun _ _ => rfl) above

theorem gather {pending : List (Factor (Node α) × Bool)} (h : t.Stable)
    (waiting : ∀ f ∈ pending, (Node.power f.1).Upright C .inside) : (gather pending t).Stable := by
  fun_induction Term.gather pending t with
  | case1 t => exact h
  | case2 t base exponent above rest zero ih => exact ih h (List.forall_mem_cons.1 waiting).2
  | case3 t exponent above rest zero unit u ih =>
    obtain ⟨first, rest⟩ := List.forall_mem_cons.1 waiting
    have inner := carry_sides (Node.upright_power.1 first).1 above (q := .inside)
    refine ih ?_ (List.forall_mem_append.2 ⟨rest, inner⟩)
    cases above <;> exact h.recoefficient _ _
  | case4 t exponent above rest zero unit u ih =>
    obtain ⟨first, rest⟩ := List.forall_mem_cons.1 waiting
    have upright := Node.upright_sum.1 (Node.upright_power.1 first).1 u List.mem_cons_self
    have inner := carry_sides upright above (q := .inside)
    refine ih ?_ (List.forall_mem_append.2 ⟨rest, inner⟩)
    cases above <;> exact h.recoefficient _ _
  | case5 t exponent above rest zero unit f ih =>
    obtain ⟨first, rest⟩ := List.forall_mem_cons.1 waiting
    have inner := (Node.upright_power.1 first).1
    exact ih h (List.forall_mem_append.2 ⟨rest, List.forall_mem_singleton.2 inner⟩)
  | case6 t exponent above rest zero unit base product single power ih =>
    obtain ⟨first, rest⟩ := List.forall_mem_cons.1 waiting
    exact ih (h.absorb first (fun _ => Node.isSpliced_of_apart product single power) above) rest
  | case7 t base exponent above rest zero composite ih =>
    obtain ⟨first, rest⟩ := List.forall_mem_cons.1 waiting
    exact ih (h.absorb first (fun unit => absurd unit composite) above) rest

end Stable

/-- A term built from upright factors has stable ones. -/
theorem normal_stable {fs gs : List (Factor (Node α))}
    (above : ∀ f ∈ fs, (Node.power f).Upright C .inside)
    (below : ∀ g ∈ gs, (Node.power g).Upright C .inside) (n d : α) : (normal n d fs gs).Stable := by
  have start : Stable (⟨n, d, [], []⟩ : Term α (Node α)) :=
    ⟨List.forall_mem_nil _, List.forall_mem_nil _⟩
  have gathered : (gather (fs.map (·, true) ++ gs.map (·, false)) ⟨n, d, [], []⟩).Stable := by
    refine start.gather (C := C) ?_
    rw [List.forall_mem_append, List.forall_mem_map, List.forall_mem_map]
    exact ⟨above, below⟩
  obtain ⟨factors, divisors⟩ := settled_real
    (gather (fs.map (·, true) ++ gs.map (·, false)) ⟨n, d, [], []⟩)
  constructor
  · rw [normal, factors]
    exact gathered.above
  · rw [normal, divisors]
    exact gathered.below

end Term

end Exact

end SymbolicAlgebra
