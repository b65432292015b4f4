/-
  Opposites
  =========
  A negation mark in front of a phrase negates the first operand only. Two of them
  change nothing. One of them makes a product its opposite unless the product starts
  with a power, whose base the mark then negates: the exponent has to be odd, or the
  product zero (`Phrase.Turns`).

  Taking the opposite of a difference from a sum is adding the difference, if its
  first product turns: **`Phrase.number?_lessAll_opposed`**.
-/
import SymbolicAlgebra.Proofs.Printing.Phrasing
import SymbolicAlgebra.Proofs.Printing.Result

namespace SymbolicAlgebra.Phrase

open SymbolicAlgebra.Postfix

variable {table : BracketTable} {level : Level}

/-! ### A mark in front -/

/-- The phrase with a negation mark in front; a primary one, which can have none, as it is. -/
def opposed {level : Level} : Phrase table level → Phrase table level
  | ofPrimary x => .negated (.ofPrimary x)
  | negated x => .negated (.negated x)
  | ofUnary x => .ofUnary x.opposed
  | raised x y => .raised x.opposed y
  | ofPower x => .ofPower x.opposed
  | scaled x g y => .scaled x.opposed g y
  | ofProduct x => .ofProduct x.opposed
  | minus x y => .minus x.opposed y
  | ofDifference x => .ofDifference x.opposed
  | plus x y => .plus x.opposed y
  | operand s known => .operand s known
  | factorial x => .factorial x
  | bracketed b x => .bracketed b x
  | unaryCall s f named b x => .unaryCall s f named b x
  | binaryCall s f named b x y => .binaryCall s f named b x y

theorem opposed_unary (x : Phrase table .unary) : x.opposed = x.negated := by
  cases x <;> rfl

theorem symbols_opposed (p : Phrase table level) (loose : level ≠ .primary) :
    p.opposed.symbols = .negation :: p.symbols := by
  induction p with
  | ofPrimary x => rfl
  | negated x => rfl
  | ofUnary x ih => exact ih (by decide)
  | ofPower x ih => exact ih (by decide)
  | ofProduct x ih => exact ih (by decide)
  | ofDifference x ih => exact ih (by decide)
  | raised x y ih => rw [opposed, symbols, ih (by decide), symbols, List.cons_append]
  | scaled x g y ih => rw [opposed, symbols, ih (by decide), symbols, List.cons_append]
  | minus x y ih => rw [opposed, symbols, ih (by decide), symbols, List.cons_append]
  | plus x y ih => rw [opposed, symbols, ih (by decide), symbols, List.cons_append]
  | _ => exact absurd rfl loose

/-- The base and the exponent of the power that the phrase starts with, if it starts with one. -/
def leading? {level : Level} : Phrase table level → Option (Phrase table .unary × Phrase table .power)
  | raised x y => some (x, y)
  | ofPower x => x.leading?
  | scaled x _ _ => x.leading?
  | ofProduct x => x.leading?
  | minus x _ => x.leading?
  | ofDifference x => x.leading?
  | plus x _ => x.leading?
  | _ => none

theorem leading?_opposed (p : Phrase table level) :
    p.opposed.leading? = p.leading?.map (Prod.map negated id) := by
  induction p with
  | raised x y => exact congrArg (fun x => some (x, y)) x.opposed_unary
  | ofPower x ih => exact ih
  | scaled x g y ih => exact ih
  | ofProduct x ih => exact ih
  | minus x y ih => exact ih
  | ofDifference x ih => exact ih
  | plus x y ih => exact ih
  | _ => rfl

/-! ### The number of an opposite -/

variable {α : Type} [FieldScalar α] {s : Scope α}

/-- Two marks in front change nothing. -/
theorem number?_opposed_opposed (p : Phrase table level) :
    p.opposed.opposed.number? s = p.number? s := by
  have twice : ∀ x : Option α, (x.map (- ·)).map (- ·) = x := by
    intro x
    cases x with
    | none => rfl
    | some x => exact congrArg some (neg_neg x)
  induction p with
  | ofPrimary x => exact twice _
  | negated x => exact twice _
  | ofUnary x ih => exact ih
  | ofPower x ih => exact ih
  | ofProduct x ih => exact ih
  | ofDifference x ih => exact ih
  | raised x y ih => rw [opposed, opposed, number?, ih, number?]
  | scaled x g y ih => rw [opposed, opposed, number?, ih, number?]
  | minus x y ih => rw [opposed, opposed, number?, ih, number?]
  | plus x y ih => rw [opposed, opposed, number?, ih, number?]
  | _ => rfl

variable [LawfulScalar α]

theorem productValue?_neg (g : ProductSign) (x y : α) :
    binaryValue? (Sign.product g).symbol (-x) y =
      (binaryValue? (Sign.product g).symbol x y).map (- ·) := by
  cases g with
  | times => exact congrArg some (neg_mul x y)
  | juxtaposed => exact congrArg some (neg_mul x y)
  | remainder => exact congrArg some (LawfulScalar.neg_remainder x y)
  | divided =>
    show quotient? (-x) y = (quotient? x y).map (- ·)
    unfold quotient?
    split
    · rfl
    · exact congrArg some (neg_div y x)

/-- A mark in front makes a product its opposite, or it starts with a power whose exponent is
even and stays what it is. -/
theorem number?_opposed_cases (p : Phrase table level)
    (tight : level = .unary ∨ level = .power ∨ level = .product)
    (whole : ∀ x y e, p.leading? = some (x, y) → y.number? s = some e → Scalar.isWhole e = true) :
    p.opposed.number? s = (p.number? s).map (- ·) ∨
      p.opposed.number? s = p.number? s ∧
        ∃ x y e, p.leading? = some (x, y) ∧ y.number? s = some e ∧ Scalar.isOdd e = false := by
  induction p with
  | ofPrimary x => exact .inl rfl
  | negated x => exact .inl rfl
  | ofUnary x =>
    left
    show x.opposed.number? s = _
    rw [opposed_unary]
    rfl
  | ofPower x ih => exact ih (.inr (.inl rfl)) whole
  | raised x y =>
    rw [opposed, opposed_unary, number?, number?, number?]
    cases x.number? s with
    | none => exact .inl rfl
    | some b =>
      cases exponent : y.number? s with
      | none => exact .inl rfl
      | some e =>
        have turned := LawfulScalar.neg_power b e (whole x y e rfl exponent)
        cases odd : Scalar.isOdd e with
        | false =>
          right
          rw [odd, if_neg Bool.false_ne_true] at turned
          exact ⟨congrArg some turned, x, y, e, rfl, exponent, odd⟩
        | true =>
          left
          rw [odd, if_pos rfl] at turned
          exact congrArg some turned
  | scaled x g y ih =>
    rw [opposed, number?, number?]
    rcases ih (.inr (.inr rfl)) whole with turned | ⟨stays, even⟩
    · left
      rw [turned]
      cases x.number? s with
      | none => rfl
      | some b =>
        cases y.number? s with
        | none => rfl
        | some c => exact productValue?_neg g b c
    · right
      rw [stays]
      exact ⟨rfl, even⟩
  | ofProduct x => simp at tight
  | minus x y => simp at tight
  | ofDifference x => simp at tight
  | plus x y => simp at tight
  | _ => simp at tight

/-- If the product starts with a power of an opposite, the exponent is a whole number, and it is
odd or the product is zero. -/
def Turns (s : Scope α) (y : Phrase table .product) : Prop :=
  ∀ x exponent e, y.leading? = some (.negated x, exponent) → exponent.number? s = some e →
    Scalar.isWhole e = true ∧ (Scalar.isOdd e = true ∨ y.number? s = some 0)

/-- A mark in front of a product that turns makes it its opposite. -/
theorem number?_opposed (y : Phrase table .product) (turns : y.opposed.Turns s) :
    y.opposed.number? s = (y.number? s).map (- ·) := by
  have starts : ∀ x exponent, y.leading? = some (x, exponent) →
      y.opposed.leading? = some (.negated x, exponent) := by
    intro x exponent leading
    rw [leading?_opposed, leading]
    rfl
  have whole : ∀ x exponent e, y.leading? = some (x, exponent) → exponent.number? s = some e →
      Scalar.isWhole e = true :=
    fun x exponent e leading value => (turns x exponent e (starts x exponent leading) value).1
  rcases y.number?_opposed_cases (.inr (.inr rfl)) whole with
    turned | ⟨stays, x, exponent, e, leading, value, even⟩
  · exact turned
  · rcases (turns x exponent e (starts x exponent leading) value).2 with odd | zero
    · rw [even] at odd
      cases odd
    · rw [zero, ← stays, zero]
      exact congrArg some neg_zero.symm

/-! ### Opposites taken away -/

omit [FieldScalar α] [LawfulScalar α] in
theorem difference_induction {motive : Phrase table .difference → Prop}
    (start : ∀ y, motive (.ofProduct y)) (next : ∀ z y, motive z → motive (.minus z y))
    (z : Phrase table .difference) : motive z := by
  have all : ∀ {level : Level} (p : Phrase table level) (same : level = .difference),
      motive (same ▸ p) := by
    intro level p
    induction p with
    | ofProduct y => exact fun _ => start y
    | minus z y ih => exact fun _ => next z y (ih rfl)
    | _ =>
      intro same
      cases same
  exact all z rfl

/-- The sum less the first product of a difference, and less the others too. -/
def lessAll (x : Phrase table .sum) : Phrase table .difference → Phrase table .sum
  | ofProduct y => x.less y
  | minus z y => (x.lessAll z).less y

omit [FieldScalar α] [LawfulScalar α] in
theorem symbols_lessAll (x : Phrase table .sum) (z : Phrase table .difference) :
    (x.lessAll z).symbols = x.symbols ++ Sign.minus.symbol :: z.symbols := by
  induction z using difference_induction with
  | start y =>
    rw [lessAll, symbols_less]
    rfl
  | next z y ih =>
    rw [lessAll, symbols_less, ih, symbols]
    simp

/-- Every product that is taken away turns. -/
def Opposes (s : Scope α) {level : Level} : Phrase table level → Prop
  | operand _ _ => True
  | factorial x => x.Opposes s
  | bracketed _ x => x.Opposes s
  | unaryCall _ _ _ _ x => x.Opposes s
  | binaryCall _ _ _ _ x y => x.Opposes s ∧ y.Opposes s
  | ofPrimary x => x.Opposes s
  | negated x => x.Opposes s
  | ofUnary x => x.Opposes s
  | raised x y => x.Opposes s ∧ y.Opposes s
  | ofPower x => x.Opposes s
  | scaled x _ y => x.Opposes s ∧ y.Opposes s
  | ofProduct x => x.Opposes s
  | minus x y => x.Opposes s ∧ y.Opposes s ∧ y.Turns s
  | ofDifference x => x.Opposes s
  | plus x y => x.Opposes s ∧ y.Opposes s

omit [LawfulScalar α] in
theorem opposes_opposed (p : Phrase table level) : p.opposed.Opposes s ↔ p.Opposes s := by
  induction p with
  | ofUnary x ih => exact ih
  | ofPower x ih => exact ih
  | ofProduct x ih => exact ih
  | ofDifference x ih => exact ih
  | raised x y ih => exact and_congr_left' ih
  | scaled x g y ih => exact and_congr_left' ih
  | minus x y ih => exact and_congr_left' ih
  | plus x y ih => exact and_congr_left' ih
  | _ => exact Iff.rfl

omit [LawfulScalar α] in
theorem opposes_less (x : Phrase table .sum) (y : Phrase table .product) :
    (x.less y).Opposes s ↔ x.Opposes s ∧ y.Opposes s ∧ y.Turns s := by
  cases x with
  | ofDifference x => exact Iff.rfl
  | plus x z => exact and_assoc.symm

omit [LawfulScalar α] in
theorem opposes_of_lessAll {x : Phrase table .sum} {z : Phrase table .difference}
    (h : (x.lessAll z).Opposes s) : x.Opposes s ∧ z.Opposes s := by
  induction z using difference_induction with
  | start y =>
    rw [lessAll] at h
    obtain ⟨first, second, -⟩ := (opposes_less x y).1 h
    exact ⟨first, second⟩
  | next z y ih =>
    rw [lessAll] at h
    obtain ⟨front, last⟩ := (opposes_less _ y).1 h
    obtain ⟨first, second⟩ := ih front
    exact ⟨first, second, last⟩

/-- Taking the opposite of a difference away is adding the difference. -/
theorem number?_lessAll_opposed (x : Phrase table .sum) (z : Phrase table .difference)
    (h : (x.lessAll z.opposed).Opposes s) :
    (x.lessAll z.opposed).number? s = (x.plus z).number? s := by
  induction z using difference_induction with
  | start y =>
    rw [opposed, lessAll] at h ⊢
    obtain ⟨-, -, turns⟩ := (opposes_less x y.opposed).1 h
    rw [number?_less, number?_opposed y turns, number?, number?]
    cases x.number? s with
    | none => rfl
    | some a =>
      cases y.number? s with
      | none => rfl
      | some b => exact congrArg some (sub_neg_eq_add a b)
  | next z y ih =>
    rw [opposed, lessAll] at h ⊢
    rw [number?_less, ih ((opposes_less _ y).1 h).1, number?, number?, number?]
    cases x.number? s with
    | none => rfl
    | some a =>
      cases z.number? s with
      | none => rfl
      | some b =>
        cases y.number? s with
        | none => rfl
        | some c => exact congrArg some (add_sub_assoc a b c)

end SymbolicAlgebra.Phrase
