/-
  Expressions that can be read
  ============================
  `Node.Every` asks something of each number, of each variable and of the terms of each
  sum that an expression holds, factors that are certainly one excepted. An expression
  is legible when its numbers are finite, its variables are letters, and none of its sums
  is empty.

  The printer turns the sign of a term that it subtracts, and a term with the opposite
  sign is as legible as it was: **`Term.every_negate`**.
-/
import SymbolicAlgebra.Proofs.Printing.Negation
import SymbolicAlgebra.Proofs.CarryOver.Parsing

namespace SymbolicAlgebra

section Every

variable {α : Type} [Scalar α] {N : α → Prop} {V : Variable → Prop}
  {S : List (Term α (Node α)) → Prop}

/-- Every number, every variable and the terms of every sum that counts have the property that is
asked of them. -/
inductive Node.Every (N : α → Prop) (V : Variable → Prop) (S : List (Term α (Node α)) → Prop) :
    Node α → Prop
  | number (x : α) (holds : N x) : Every N V S (.number x)
  | constant (c : Constant) (negative : Bool) : Every N V S (.constant c negative)
  | var (v : Variable) (negative : Bool) (holds : V v) : Every N V S (.var v negative)
  | power (f : Factor (Node α)) (base : Every N V S f.base) (exponent : Every N V S f.exponent) :
      Every N V S (.power f)
  | product (t : Term α (Node α)) (numerator : N t.numerator) (denominator : N t.denominator)
      (factors : ∀ f ∈ t.realFactors, Every N V S (.power f))
      (divisors : ∀ g ∈ t.realDivisors, Every N V S (.power g)) : Every N V S (.product t)
  | sum (ts : List (Term α (Node α))) (holds : S ts) (terms : ∀ t ∈ ts, Every N V S (.product t)) :
      Every N V S (.sum ts)
  | unary (f : Unary) (x : Node α) (argument : Every N V S x) : Every N V S (.unary f x)
  | binary (f : Binary) (x y : Node α) (left : Every N V S x) (right : Every N V S y) :
      Every N V S (.binary f x y)

/-- Everything in the factor has the property that is asked of it. -/
def Factor.Every (N : α → Prop) (V : Variable → Prop) (S : List (Term α (Node α)) → Prop)
    (f : Factor (Node α)) : Prop :=
  (Node.power f).Every N V S

/-- Everything in the term has the property that is asked of it. -/
def Term.Every (N : α → Prop) (V : Variable → Prop) (S : List (Term α (Node α)) → Prop)
    (t : Term α (Node α)) : Prop :=
  (Node.product t).Every N V S

theorem Factor.every_iff {f : Factor (Node α)} :
    f.Every N V S ↔ f.base.Every N V S ∧ f.exponent.Every N V S := by
  constructor
  · intro h
    cases h with
    | power _ base exponent => exact ⟨base, exponent⟩
  · rintro ⟨base, exponent⟩
    exact .power f base exponent

theorem Factor.every_mk {base exponent : Node α} (hb : base.Every N V S)
    (he : exponent.Every N V S) : (⟨base, exponent⟩ : Factor (Node α)).Every N V S :=
  .power _ hb he

theorem Term.every_iff {t : Term α (Node α)} :
    t.Every N V S ↔ (N t.numerator ∧ N t.denominator) ∧ (∀ f ∈ t.realFactors, f.Every N V S) ∧
      ∀ g ∈ t.realDivisors, g.Every N V S := by
  constructor
  · intro h
    cases h with
    | product _ numerator denominator factors divisors =>
      exact ⟨⟨numerator, denominator⟩, factors, divisors⟩
  · rintro ⟨⟨numerator, denominator⟩, factors, divisors⟩
    exact .product t numerator denominator factors divisors

theorem Term.every_of_single {t : Term α (Node α)} {f : Factor (Node α)}
    (only : t.realFactors ++ t.realDivisors = [f]) (factor : f.Every N V S) (numerator : N t.numerator)
    (denominator : N t.denominator) : t.Every N V S := by
  have each : ∀ g ∈ t.realFactors ++ t.realDivisors, g.Every N V S := by
    rw [only]
    exact List.forall_mem_singleton.2 factor
  obtain ⟨factors, divisors⟩ := List.forall_mem_append.1 each
  exact .product t numerator denominator factors divisors

theorem Node.every_sum {ts : List (Term α (Node α))} :
    (Node.sum ts).Every N V S ↔ S ts ∧ ∀ t ∈ ts, t.Every N V S := by
  constructor
  · intro h
    cases h with
    | sum _ holds terms => exact ⟨holds, terms⟩
  · rintro ⟨holds, terms⟩
    exact .sum ts holds terms

theorem Node.every_number {x : α} : (Node.number x).Every N V S ↔ N x := by
  constructor
  · intro h
    cases h with
    | number _ holds => exact holds
  · exact .number x

theorem Node.every_var {v : Variable} {negative : Bool} :
    (Node.var v negative : Node α).Every N V S ↔ V v := by
  constructor
  · intro h
    cases h with
    | var _ _ holds => exact holds
  · exact .var v negative

theorem Node.every_unary {f : Unary} {x : Node α} :
    (Node.unary f x).Every N V S ↔ x.Every N V S := by
  constructor
  · intro h
    cases h with
    | unary _ _ argument => exact argument
  · exact .unary f x

theorem Node.every_binary {f : Binary} {x y : Node α} :
    (Node.binary f x y).Every N V S ↔ x.Every N V S ∧ y.Every N V S := by
  constructor
  · intro h
    cases h with
    | binary _ _ _ left right => exact ⟨left, right⟩
  · rintro ⟨left, right⟩
    exact .binary f x y left right

/-- What is asked of the numbers and what is asked of the rest can be asked apart. -/
theorem Node.Every.of_numbers {n : Node α}
    (h : n.Every N (fun _ => True) (fun _ => True)) (h' : n.Every (fun _ => True) V S) :
    n.Every N V S := by
  induction h with
  | number x holds => exact .number x holds
  | constant c negative => exact .constant c negative
  | var v negative => exact .var v negative (every_var.1 h')
  | power f _ _ ihb ihe =>
    obtain ⟨base, exponent⟩ := Factor.every_iff.1 h'
    exact .power f (ihb base) (ihe exponent)
  | product t numerator denominator _ _ ihf ihd =>
    obtain ⟨-, factors, divisors⟩ := Term.every_iff.1 h'
    exact .product t numerator denominator (fun f hf => ihf f hf (factors f hf))
      fun g hg => ihd g hg (divisors g hg)
  | sum ts _ _ ih =>
    obtain ⟨holds, terms⟩ := every_sum.1 h'
    exact .sum ts holds fun t ht => ih t ht (terms t ht)
  | unary f x _ ih => exact .unary f x (ih (every_unary.1 h'))
  | binary f x y _ _ ihx ihy =>
    obtain ⟨left, right⟩ := every_binary.1 h'
    exact .binary f x y (ihx left) (ihy right)

/-- What is asked of the variables and of the sums is asked of all parts alike. -/
instance : Hereditary (Node.Every (fun _ => True) V (· ≠ []) : Node α → Prop) where
  number x := .number x trivial
  constant := .constant
  var h negative := .var _ negative (Node.every_var.1 h)
  power := Factor.every_iff
  product := Term.every_iff.trans (and_iff_right ⟨trivial, trivial⟩)
  terms h := (Node.every_sum.1 h).2
  sum present each := .sum _ present each
  unary := Node.every_unary
  binary := Node.every_binary

/-- A parsed expression holds variables that can be written, and no sum without terms. -/
theorem ParserSettings.every_parse (settings : ParserSettings) (text : String) :
    Yields (Node.Every (fun _ => True) (fun v => v.letter.isAlpha = true) (· ≠ []))
      (settings.parse text : Checked (Node α)) :=
  ParserSettings.carry_parse (fun v letter => .var v false letter)
    (fun _ postfixed _ _ => Postfix.raising_of_uniform postfixed)
    fun _ _ _ _ _ _ c _ => .constant c false

end Every

/-! ### Numbers that are read back -/

/-- The number is finite. -/
def Scalar.Finite {α : Type} [Scalar α] (x : α) : Prop := Scalar.isFinite x = true

/-- Scalars whose finite numbers are closed under signs, products and powers with an exponent that
is not below zero, and are written so that they are read back. -/
class ReadableScalar (α : Type) [FieldScalar α] : Prop where
  finite_one : Scalar.Finite (1 : α)
  finite_neg : ∀ {x : α}, Scalar.Finite x → Scalar.Finite (-x)
  finite_mul : ∀ {x y : α}, Scalar.Finite x → Scalar.Finite y → Scalar.Finite (x * y)
  finite_power : ∀ {b x : α}, Scalar.Finite b → Scalar.Finite x → Scalar.lt x 0 = false →
    Scalar.Finite (Scalar.power b x)
  neg_lt_zero : ∀ {x : α}, Scalar.lt x 0 = true → Scalar.lt (-x) 0 = false
  text_numeral : ∀ {x : α}, Scalar.Finite x → Scalar.lt x 0 = false →
    '\n' ∉ (Scalar.text x).toList ∧
      ∃ d, (⟨Scalar.text x⟩ : Symbol).numeral? = some d ∧ Scalar.ofDecimal d = x
  text_negative : ∀ {x : α}, Scalar.Finite x → Scalar.lt x 0 = true →
    Scalar.text x = "-" ++ Scalar.text (-x)

/-! ### The sign of a term -/

namespace Term

open ReadableScalar

variable {α : Type} [FieldScalar α] [ReadableScalar α] {V : Variable → Prop}
  {S : List (Term α (Node α)) → Prop} {t : Term α (Node α)}

/-- Everything in a term has what is asked of it, also the factors that are certainly one. -/
def Entire (V : Variable → Prop) (S : List (Term α (Node α)) → Prop) (t : Term α (Node α)) : Prop :=
  (Scalar.Finite t.numerator ∧ Scalar.Finite t.denominator) ∧
    ∀ p ∈ t.listed, p.1.Every Scalar.Finite V S

namespace Entire

omit [ReadableScalar α] in
theorem push (h : t.Entire V S) {f : Factor (Node α)} (hf : f.Every Scalar.Finite V S)
    (above : Bool) : (t.push above f).Entire V S := by
  have members : ∀ p ∈ (t.push above f).listed, p.1.Every Scalar.Finite V S := by
    intro p hp
    rcases List.mem_cons.1 ((listed_push t above f).mem_iff.1 hp) with rfl | hp
    · exact hf
    · exact h.2 p hp
  cases above <;> exact ⟨h.1, members⟩

theorem scale (h : t.Entire V S) {x : α} (finite : Scalar.Finite x) (above : Bool) :
    (t.scale above x).Entire V S := by
  cases above
  · exact ⟨⟨h.1.1, finite_mul h.1.2 finite⟩, h.2⟩
  · exact ⟨⟨finite_mul h.1.1 finite, h.1.2⟩, h.2⟩

theorem scaleBy (h : t.Entire V S) {u : Term α (Node α)} (hu : u.Every Scalar.Finite V S)
    (above : Bool) : (t.scaleBy above u).Entire V S := by
  obtain ⟨⟨numerator, denominator⟩, -⟩ := every_iff.1 hu
  cases above
  · exact ⟨⟨finite_mul h.1.1 denominator, finite_mul h.1.2 numerator⟩, h.2⟩
  · exact ⟨⟨finite_mul h.1.1 numerator, finite_mul h.1.2 denominator⟩, h.2⟩

theorem multiplyBy (h : t.Entire V S) {f : Factor (Node α)} (hf : f.Every Scalar.Finite V S)
    (positive : ∀ x, f.exponent = .number x → Scalar.lt x 0 = false) (above : Bool) :
    (t.multiplyBy above f).Entire V S := by
  obtain ⟨base, exponent⟩ := Factor.every_iff.1 hf
  have flipped : ∀ x : α,
      (if Scalar.isOdd x = true then { t with numerator := -t.numerator } else t).Entire V S := by
    intro x
    split
    · exact ⟨⟨finite_neg h.1.1, h.1.2⟩, h.2⟩
    · exact h
  unfold Term.multiplyBy
  dsimp only
  split
  · rename_i b x written raised
    rw [written] at base
    rw [raised] at exponent
    exact h.scale (finite_power (Node.every_number.1 base) (Node.every_number.1 exponent)
      (positive x raised)) above
  · rename_i v x written _
    rw [written] at base
    split
    · refine (flipped x).push (Factor.every_mk ?_ exponent) above
      cases base with
      | var _ _ holds => exact .var v false holds
    · exact h.push hf above
  · split
    · exact (flipped _).push (Factor.every_mk (.constant _ false) exponent) above
    · exact h.push hf above
  · exact h.push hf above

theorem absorb (h : t.Entire V S) {f : Factor (Node α)} (hf : f.Every Scalar.Finite V S)
    (above : Bool) : (t.absorb above f).Entire V S := by
  obtain ⟨base, exponent⟩ := Factor.every_iff.1 hf
  unfold Term.absorb
  split
  · rename_i x raised
    rw [raised] at exponent
    split
    · rename_i negative
      rw [FieldScalar.ofValue_eq]
      have opposite : (Node.number (-x)).Every Scalar.Finite V S :=
        .number _ (finite_neg (Node.every_number.1 exponent))
      refine h.multiplyBy (Factor.every_mk base opposite) ?_ _
      rintro y ⟨⟩
      exact neg_lt_zero negative
    · rename_i nonnegative
      refine h.multiplyBy hf (fun y same => ?_) above
      rw [raised] at same
      cases same
      simpa using nonnegative
  · rename_i symbolic
    exact h.multiplyBy hf (fun x same => absurd same (symbolic x)) above

omit [ReadableScalar α] in
theorem sides {u : Term α (Node α)} (hu : u.Every Scalar.Finite V S) (above : Bool) :
    ∀ p ∈ u.sides above, p.1.Every Scalar.Finite V S := by
  obtain ⟨-, factors, divisors⟩ := every_iff.1 hu
  intro p hp
  simp only [Term.sides, List.mem_append, List.mem_map] at hp
  rcases hp with ⟨f, hf, rfl⟩ | ⟨f, hf, rfl⟩
  · exact factors f hf
  · exact divisors f hf

theorem gather {pending : List (Factor (Node α) × Bool)}
    (waiting : ∀ p ∈ pending, p.1.Every Scalar.Finite V S) (h : t.Entire V S) :
    (gather pending t).Entire V S := by
  fun_induction Term.gather pending t with
  | case1 t => exact h
  | case2 t base exponent above rest zero ih => exact ih (List.forall_mem_cons.1 waiting).2 h
  | case3 t exponent above rest zero unit u ih =>
    obtain ⟨first, rest⟩ := List.forall_mem_cons.1 waiting
    have inner : u.Every Scalar.Finite V S := (Factor.every_iff.1 first).1
    exact ih (List.forall_mem_append.2 ⟨rest, sides inner above⟩) (h.scaleBy inner above)
  | case4 t exponent above rest zero unit u ih =>
    obtain ⟨first, rest⟩ := List.forall_mem_cons.1 waiting
    have inner : u.Every Scalar.Finite V S :=
      (Node.every_sum.1 (Factor.every_iff.1 first).1).2 u List.mem_cons_self
    exact ih (List.forall_mem_append.2 ⟨rest, sides inner above⟩) (h.scaleBy inner above)
  | case5 t exponent above rest zero unit f ih =>
    obtain ⟨first, rest⟩ := List.forall_mem_cons.1 waiting
    have inner : f.Every Scalar.Finite V S := (Factor.every_iff.1 first).1
    exact ih (List.forall_mem_append.2 ⟨rest, List.forall_mem_singleton.2 inner⟩) h
  | case6 t exponent above rest zero unit base _ _ _ ih =>
    obtain ⟨first, rest⟩ := List.forall_mem_cons.1 waiting
    exact ih rest (h.absorb first above)
  | case7 t base exponent above rest zero composite ih =>
    obtain ⟨first, rest⟩ := List.forall_mem_cons.1 waiting
    exact ih rest (h.absorb first above)

end Entire

/-- A built term holds what it is built from. -/
theorem every_normal {n d : α} {fs gs : List (Factor (Node α))} (hn : Scalar.Finite n)
    (hd : Scalar.Finite d) (above : ∀ f ∈ fs, f.Every Scalar.Finite V S)
    (below : ∀ g ∈ gs, g.Every Scalar.Finite V S) : (normal n d fs gs).Every Scalar.Finite V S := by
  have waiting : ∀ p ∈ fs.map (·, true) ++ gs.map (·, false), p.1.Every Scalar.Finite V S := by
    rw [List.forall_mem_append, List.forall_mem_map, List.forall_mem_map]
    exact ⟨above, below⟩
  have start : (⟨n, d, [], []⟩ : Term α (Node α)).Entire V S := ⟨⟨hn, hd⟩, List.forall_mem_nil _⟩
  obtain ⟨⟨numerator, denominator⟩, members⟩ := start.gather waiting
  obtain ⟨upper, lower⟩ := List.forall_mem_append.1 members
  rw [List.forall_mem_map] at upper lower
  -- an empty product holds nothing that counts
  have real : ∀ {fs : List (Factor (Node α))}, (∀ f ∈ fs, f.Every Scalar.Finite V S) →
      ∀ f ∈ SymbolicAlgebra.realFactors (if fs.isEmpty then [Factor.empty] else fs),
        f.Every Scalar.Finite V S := by
    intro fs each f hf
    cases fs with
    | nil => simp [SymbolicAlgebra.realFactors, Factor.isOne, Factor.empty, Node.isZero] at hf
    | cons g fs => exact each f (List.mem_filter.1 hf).1
  unfold normal settled
  dsimp only
  split
  · exact every_iff.2 ⟨⟨finite_neg numerator, finite_neg denominator⟩, real upper, real lower⟩
  · exact every_iff.2 ⟨⟨numerator, denominator⟩, real upper, real lower⟩

theorem every_times {u : Term α (Node α)} (ht : t.Every Scalar.Finite V S)
    (hu : u.Every Scalar.Finite V S) : (t.times u).Every Scalar.Finite V S := by
  obtain ⟨⟨numerator, denominator⟩, factors, divisors⟩ := every_iff.1 ht
  obtain ⟨⟨numerator', denominator'⟩, factors', divisors'⟩ := every_iff.1 hu
  exact every_normal (finite_mul numerator numerator') (finite_mul denominator denominator')
    (List.forall_mem_append.2 ⟨factors, factors'⟩) (List.forall_mem_append.2 ⟨divisors, divisors'⟩)

/-- A term holds with the opposite sign what it held. -/
theorem every_negate (h : t.Every Scalar.Finite V S) : t.negate.Every Scalar.Finite V S := by
  have minusOne : (⟨.number (-1), .number 1⟩ : Factor (Node α)).Every Scalar.Finite V S :=
    Factor.every_mk (.number _ (finite_neg finite_one)) (.number _ finite_one)
  refine every_times h ?_
  rw [FieldScalar.ofValue_eq]
  exact every_normal finite_one finite_one (List.forall_mem_singleton.2 minusOne)
    (List.forall_mem_nil _)

end Term

end SymbolicAlgebra
