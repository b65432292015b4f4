/-
  Expressions that are read back
  ==============================
  Reading the text of an expression computes: terms are multiplied, sums are added, and
  the whole is reduced. `Node.Recoverable` describes the expressions that all of this
  leaves alone, by one clause for each kind of node. Terms and sums are built of what
  they hold, factors that would fuse stand apart, and where the text of a sum is read as
  a sum or a difference of two single terms, these are no fractions. The text of such an
  expression builds the expression (`Node.rebuilt`) wherever it stands in a longer text
  (`Node.Rebuilt`).

  A parsed expression of finite numbers is therefore what its text is read as, if it is
  recoverable: **`Node.parse_toText`**. Without the condition on sums this fails at
  `x + y - 1/x`, which is no difference of `x + y` and `1/x` when it is read again
  (`Node.parse_toText_fraction`).
-/
import SymbolicAlgebra.Proofs.Roundtrip.Sum

namespace SymbolicAlgebra

open SymbolicAlgebra.Text Node

variable {α : Type} [FieldScalar α]

namespace Node

/-! ### What is to be shown of a text -/

/-- The text of the expression builds the expression wherever the printer puts it. -/
structure Rebuilt (n : Node α) : Prop where
  operand : n.isAtomic = true → n.isNegative = false → Builds true .primary n.toText n
  leaf : n.isAtomic = true → Builds false .unary n.toText n
  power : n.isPower = true → Builds true .power n.toText n
  product : n.isLongSum = false → Leads .product n.toText n
  whole : Builds false .sum n.toText n
  /-- The digits of a coefficient do not run into a name. -/
  name : n.unsigned?.isSome = true → startsNumber n.toText = false
  /-- The expression is no power of one, which is not written. -/
  plain : n.unwrapped = n

variable {m n : Node α} {text : String}

/-- An operand with or without a sign. -/
theorem rebuilt_leaf (atomic : n.isAtomic = true) (shape : n.toText = signedText n.isNegative text)
    (sign : (if n.isNegative then m.negate else m) = n) (h : Builds true .primary text m)
    (name : n.unsigned?.isSome = true → startsNumber text = false) : n.Rebuilt := by
  obtain ⟨notPower, short⟩ := kinds_of_isAtomic atomic
  have power : ¬ n.isPower = true := by simp [notPower]
  have plain : n.unwrapped = n := by
    cases n with
    | power f => cases atomic
    | _ => rfl
  cases negative : n.isNegative with
  | false =>
    rw [negative] at shape sign
    have same : n.toText = text := shape
    have equal : m = n := sign
    subst equal
    rw [← same] at h
    exact ⟨fun _ _ => h, fun _ => h.weaken.ofPrimary, fun other => absurd other power,
      fun _ => .inl h.ofPrimary.ofUnary.ofPower, h.weaken.ofPrimary.ofUnary.ofPower.ofProduct,
      fun named => same ▸ name named, plain⟩
  | true =>
    rw [negative] at shape sign
    have same : n.toText = "-" ++ text := shape
    have equal : m.negate = n := sign
    have signed : Builds false .unary n.toText n := by
      rw [same, ← equal]
      exact h.negated
    have minus : startsMinus n.toText = true := by
      rw [same]
      exact startsMinus_append rfl text
    refine ⟨fun _ positive => ?_, fun _ => signed, fun other => absurd other power,
      fun _ => .inr ⟨minus, signed.ofUnary.ofPower⟩, signed.ofUnary.ofPower.ofProduct, fun _ => ?_,
      plain⟩
    · rw [negative] at positive
      cases positive
    · rw [same, startsNumber, String.toList_append]
      rfl

theorem rebuilt_number [ReadableScalar α] {x : α} (finite : Scalar.Finite x) :
    (Node.number x).Rebuilt := by
  have text : (Node.number x).toText = Scalar.text x := by rw [toText]
  cases negative : Scalar.lt x 0 with
  | false =>
    have minus : (Node.number x).isNegative = false := by rw [isNegative, negative]
    refine rebuilt_leaf rfl ?_ ?_ (Builds.numeral finite negative) (by rintro ⟨⟩)
    · rw [text, minus]
      rfl
    · rw [minus]
      rfl
  | true =>
    have minus : (Node.number x).isNegative = true := by rw [isNegative, negative]
    refine rebuilt_leaf rfl ?_ ?_
      (Builds.numeral (ReadableScalar.finite_neg finite) (ReadableScalar.neg_lt_zero negative))
      (by rintro ⟨⟩)
    · rw [text, minus]
      exact ReadableScalar.text_negative finite negative
    · rw [minus, if_pos rfl, negate, FieldScalar.ofValue_eq, neg_neg]

theorem rebuilt_constant (c : Constant) (negative : Bool) :
    (Node.constant c negative : Node α).Rebuilt := by
  have minus : (Node.constant c negative : Node α).isNegative = negative := by rw [isNegative]
  have node : (Phrase.operand ⟨c.symbol⟩ (Phrase.isOperand_constant c) :
      Phrase .round .primary).node α = .ok (.constant c false) := by
    cases c <;> rfl
  refine rebuilt_leaf rfl ?_ ?_ ⟨_, Phrase.spelled_constant c, node⟩ fun _ => by cases c <;> decide
  · rw [toText, minus]
  · rw [minus]
    cases negative <;> rfl

theorem rebuilt_var {v : Variable} (letter : v.letter.isAlpha = true)
    (other : Constant.ofSymbol? v.name = none) (negative : Bool) :
    (Node.var v negative : Node α).Rebuilt := by
  obtain ⟨formed, single, read⟩ := Variable.name_spec letter
  have minus : (Node.var v negative : Node α).isNegative = negative := by rw [isNegative]
  have node : (Phrase.operand ⟨v.name⟩ (Phrase.isOperand_name formed) :
      Phrase .round .primary).node α = .ok (.var v false) := by
    rw [Phrase.node, Symbol.toOperand, Variable.numeral?_name letter, other]
    have named : (⟨v.name⟩ : Symbol).isVariable = true := by
      rw [Symbol.isVariable, Symbol.isConstant, formed, other]
      rfl
    dsimp only
    rw [named, if_pos rfl, read]
    rfl
  refine rebuilt_leaf rfl ?_ ?_ ⟨_, Phrase.spelled_variable formed single, node⟩ fun _ => ?_
  · rw [toText, minus]
  · rw [minus]
    cases negative <;> rfl
  · obtain ⟨run, starts, -⟩ := v.toList_name
    rw [startsNumber, starts]
    exact (Phrase.plain_of_isAlpha letter).1

/-! ### Operands -/

/-- The base of a power and the operand of a factorial. -/
theorem Rebuilt.builds_operand (h : n.Rebuilt) :
    Builds true .primary (bracketed (n.isAtomic && !n.isNegative) n.toText) n := by
  unfold Node.bracketed
  split
  · rename_i bare
    rw [Bool.and_eq_true, Bool.not_eq_true'] at bare
    exact h.operand bare.1 bare.2
  · exact h.whole.bracketed

/-- The exponent of a power. -/
theorem Rebuilt.builds_exponent (h : n.Rebuilt) :
    Builds true .power (bracketed ((n.isAtomic || n.isPower) && !n.isNegative) n.toText) n := by
  unfold Node.bracketed
  split
  · rename_i bare
    rw [Bool.and_eq_true, Bool.or_eq_true, Bool.not_eq_true'] at bare
    rcases bare.1 with atomic | power
    · exact (h.operand atomic bare.2).ofPrimary.ofUnary
    · exact h.power power
  · exact h.whole.bracketed.ofPrimary.ofUnary

/-- The divisor of a remainder. -/
theorem Rebuilt.builds_divisor (h : n.Rebuilt) :
    Builds false .power (bracketed (n.isAtomic || n.isPower) n.toText) n := by
  unfold Node.bracketed
  split
  · rename_i bare
    rcases (Bool.or_eq_true _ _).mp bare with atomic | power
    · exact (h.leaf atomic).ofUnary
    · exact (h.power power).weaken
  · exact h.whole.bracketed.ofPrimary.ofUnary

end Node

/-! ### Powers -/

namespace Factor

variable {f : Factor (Node α)}

/-- A power is written as its base and its exponent. -/
theorem builds_power (raised : Factor.raised f.base f.exponent = f) (other : f.isUnit = false)
    (base : f.base.Rebuilt) (exponent : f.exponent.Rebuilt) :
    Builds true .power f.toText (.power f) := by
  have text : f.toText = powerText f.base f.base.toText f.exponent f.exponent.toText := by
    rw [Factor.toText, Node.toText, base.plain, exponent.plain]
  have node : f.base.raise f.exponent = .power f := by rw [raise, raised]
  rw [text, powerText, if_neg (by simpa [isUnit] using other), ← node, String.append_assoc]
  exact base.builds_operand.ofPrimary.raised exponent.builds_exponent

/-- A factor is written as its base alone, or as its base and its exponent. -/
theorem written_of_rebuilt [ExactScalar α] (lasts : f.Lasts) (base : f.base.Rebuilt)
    (exponent : f.exponent.Rebuilt) : f.Written := by
  have operand : f.isUnit = true → Builds true .primary f.toText f.base := by
    intro unit
    rw [toText_of_isUnit unit base.plain]
    exact base.builds_operand
  refine ⟨?_, operand, ?_⟩
  · cases unit : f.isUnit with
    | true =>
      rw [shown_of_isUnit unit]
      exact (operand unit).ofPrimary.ofUnary
    | false =>
      rw [shown_of_other unit]
      exact builds_power lasts.raised_eq unit base exponent
  · intro name
    have unit : f.isUnit = true := by
      cases unit : f.isUnit with
      | true => rfl
      | false =>
        rw [shown_of_other unit] at name
        cases name
    rw [shown_of_isUnit unit] at name
    rw [toText_of_isUnit unit base.plain, bracketed]
    split
    · exact base.name name
    · rw [startsNumber, String.toList_append, String.toList_append]
      rfl

end Factor

namespace Node

theorem rebuilt_power {f : Factor (Node α)} (raised : Factor.raised f.base f.exponent = f)
    (other : f.isUnit = false) (base : f.base.Rebuilt) (exponent : f.exponent.Rebuilt) :
    (Node.power f).Rebuilt := by
  have power : Builds true .power (Node.power f).toText (.power f) :=
    Factor.builds_power raised other base exponent
  refine ⟨nofun, nofun, fun _ => power, fun _ => .inl power.ofPower, power.ofPower.ofProduct.weaken,
    nofun, ?_⟩
  obtain ⟨b, e⟩ := f
  unfold unwrapped
  split
  · rename_i base x shape
    cases shape
    have apart : ¬ (x == 1) = true := by simpa [Factor.isUnit, isUnit] using other
    exact if_neg apart
  · rfl

/-! ### Calls and operators -/

theorem rebuilt_unary {f : Unary} {x : Node α} (h : x.Rebuilt) : (Node.unary f x).Rebuilt := by
  have positive : (Node.unary f x).isNegative = false := by simp [isNegative]
  have built : Builds true .primary (Node.unary f x).toText (.unary f x) := by
    rw [toText]
    split
    · rename_i operator
      obtain rfl : f = .factorial := by
        cases f <;> first | rfl | cases operator
      rw [h.plain]
      exact h.builds_operand.factorial
    · rename_i named
      have registered : Function.unary f ∈ Function.registered :=
        (Function.mem_registered _).2 ⟨by rintro ⟨⟩; exact named rfl, by rintro ⟨⟩⟩
      exact Builds.unaryCall (Function.ofName?_name registered) h.whole
  refine rebuilt_leaf rfl ?_ ?_ built (by rintro ⟨⟩)
  · rw [positive]
    rfl
  · rw [positive]
    rfl

/-- A text that stands where a factor of a product can stand. -/
theorem rebuilt_of_product {n : Node α} (leaf : n.isAtomic = false) (power : n.isPower = false)
    (nameless : n.unsigned? = none) (h : Leads .product n.toText n) : n.Rebuilt := by
  refine ⟨fun atomic => ?_, fun atomic => ?_, fun other => ?_, fun _ => h, h.toBuilds.ofProduct,
    fun name => ?_, ?_⟩
  · rw [leaf] at atomic
    cases atomic
  · rw [leaf] at atomic
    cases atomic
  · rw [power] at other
    cases other
  · rw [nameless] at name
    cases name
  · cases n with
    | power f => cases power
    | _ => rfl

theorem rebuilt_binary {f : Binary} {x y : Node α} (left : x.Rebuilt) (right : y.Rebuilt) :
    (Node.binary f x y).Rebuilt := by
  cases operator : f.isOperator with
  | true =>
    obtain rfl : f = .remainder := by
      cases f <;> first | rfl | cases operator
    have divided : Leads .product (bracketed (!x.isLongSum) x.toText) x := by
      unfold Node.bracketed
      split
      · rename_i short
        exact left.product (by simpa using short)
      · exact .inl left.whole.bracketed.ofPrimary.ofUnary.ofPower
    refine rebuilt_of_product rfl rfl rfl ?_
    rw [toText, operator, if_pos rfl, remainderText, left.plain, right.plain, String.append_assoc]
    exact divided.extend fun h => h.remainder right.builds_divisor
  | false =>
    have registered : Function.binary f ∈ Function.registered := by
      refine (Function.mem_registered _).2 ⟨by rintro ⟨⟩, ?_⟩
      rintro ⟨⟩
      cases operator
    have positive : (Node.binary f x y).isNegative = false := by simp [isNegative]
    have built : Builds true .primary (Node.binary f x y).toText (.binary f x y) := by
      rw [toText, operator, if_neg Bool.false_ne_true]
      exact Builds.binaryCall (Function.ofName?_name registered) left.whole right.whole
    refine rebuilt_leaf ?_ ?_ ?_ built (by rintro ⟨⟩)
    · rw [isAtomic, operator]
      rfl
    · rw [positive]
      rfl
    · rw [positive]
      rfl

end Node

/-! ### Terms and sums -/

variable [ExactScalar α]

/-- A term with finite numbers is written in the way it is read if its parts are. -/
theorem Term.written_of_rebuilt {t : Term α (Node α)} (canonical : t.Canonical)
    (numerator : Scalar.Finite t.numerator) (denominator : Scalar.Finite t.denominator)
    (bases : ∀ f ∈ t.realFactors ++ t.realDivisors, f.base.Rebuilt)
    (exponents : ∀ f ∈ t.realFactors ++ t.realDivisors, f.exponent.Rebuilt) : t.Written := by
  have written : ∀ f ∈ t.realFactors ++ t.realDivisors, f.Written := fun f hf =>
    Factor.written_of_rebuilt (canonical.lasts f hf) (bases f hf) (exponents f hf)
  obtain ⟨factors, divisors⟩ := List.forall_mem_append.1 written
  refine ⟨numerator, denominator, factors, divisors, fun f hf remainder => ?_⟩
  apply (bases f (List.mem_append_left _ (List.mem_of_mem_head? hf))).product
  unfold isRemainder at remainder
  split at remainder
  · rename_i shape
    rw [shape]
    rfl
  · cases remainder

variable [ReadableScalar α]

namespace Node

theorem rebuilt_product {t : Term α (Node α)} (regular : t.Regular) (written : t.Written)
    (irreducible : t.plainest = .product t) : (Node.product t).Rebuilt := by
  have leads := Term.leads_plainest regular written
  rw [irreducible] at leads
  exact rebuilt_of_product rfl rfl rfl leads

theorem rebuilt_sum {t : Term α (Node α)} {ts : List (Term α (Node α))} (several : ts ≠ [])
    (steady : SteadySum (t :: ts)) (written : ∀ u ∈ t :: ts, u.Written) (regular : t.Regular)
    (follows : ∀ u ∈ ts, u.Follows) (joins : Joins [] [t] ts) : (Node.sum (t :: ts)).Rebuilt := by
  refine ⟨nofun, nofun, nofun, fun short => ?_,
    builds_sum several steady written regular follows joins, nofun, rfl⟩
  cases ts with
  | nil => exact absurd rfl several
  | cons u us => cases short

/-! ### Expressions that reading leaves alone -/

/-- What stands in the text of the expression builds it again, and reducing changes nothing. -/
inductive Recoverable : Node α → Prop
  | number (x : α) : Recoverable (.number x)
  | constant (c : Constant) (negative : Bool) : Recoverable (.constant c negative)
  | var (v : Variable) (negative : Bool) (other : Constant.ofSymbol? v.name = none) :
      Recoverable (.var v negative)
  | power (f : Factor (Node α)) (base : Recoverable f.base) (exponent : Recoverable f.exponent)
      (raised : Factor.raised f.base f.exponent = f) (nonzero : f.exponent ≠ .number 0)
      (other : f.isUnit = false) : Recoverable (.power f)
  | product (t : Term α (Node α))
      (bases : ∀ f ∈ t.realFactors ++ t.realDivisors, Recoverable f.base)
      (exponents : ∀ f ∈ t.realFactors ++ t.realDivisors, Recoverable f.exponent)
      (regular : t.Regular) (irreducible : t.plainest = .product t) : Recoverable (.product t)
  | sum (t : Term α (Node α)) (ts : List (Term α (Node α)))
      (bases : ∀ u ∈ t :: ts, ∀ f ∈ u.realFactors ++ u.realDivisors, Recoverable f.base)
      (exponents : ∀ u ∈ t :: ts, ∀ f ∈ u.realFactors ++ u.realDivisors, Recoverable f.exponent)
      (several : ts ≠ []) (steady : SteadySum (t :: ts)) (regular : t.Regular)
      (follows : ∀ u ∈ ts, u.Follows) (joins : Joins [] [t] ts) : Recoverable (.sum (t :: ts))
  | unary (f : Unary) (x : Node α) (argument : Recoverable x) : Recoverable (.unary f x)
  | binary (f : Binary) (x y : Node α) (left : Recoverable x) (right : Recoverable y) :
      Recoverable (.binary f x y)

omit [ReadableScalar α] in
/-- Reducing leaves a recoverable expression alone. -/
theorem Recoverable.reduceAt_eq {n : Node α} (h : n.Recoverable) (height : Nat) :
    reduceAt height n = n := by
  induction h generalizing height with
  | number x => cases height <;> rfl
  | constant c negative => cases height <;> rfl
  | var v negative other => cases height <;> rfl
  | power f base exponent raised nonzero other ihb ihe =>
    cases height with
    | zero => rfl
    | succ height =>
      have node : Node.power (Factor.raised f.base f.exponent) = .power f := by rw [raised]
      rw [reduceAt, reduceFactor, ihb, ihe]
      split
      · rename_i x number
        have some : ¬ (x == 0) = true := fun zero => nonzero (by rw [number, eq_of_beq zero])
        have apart : ¬ (x == 1) = true := fun one => by simp [Factor.isUnit, number, isUnit, one] at other
        rw [if_neg some, if_neg apart, ← number, node]
      · exact node
  | product t bases exponents regular irreducible ihb ihe =>
    cases height with
    | zero => rfl
    | succ height =>
      rw [reduceAt, regular.reduceTerm_eq regular.nonzero fun f hf => ⟨ihb f hf height, ihe f hf height⟩,
        irreducible]
  | sum t ts bases exponents several steady =>
    exact (steady.sum_steady (by simpa using several)).reduced height
  | unary f x argument ih =>
    cases height with
    | zero => rfl
    | succ height => rw [reduceAt, ih]
  | binary f x y left right ihx ihy =>
    cases height with
    | zero => rfl
    | succ height => rw [reduceAt, ihx, ihy]

/-- The text of a recoverable expression of finite numbers and letters builds the expression. -/
theorem rebuilt {n : Node α} (h : n.Recoverable) {S : List (Term α (Node α)) → Prop}
    (legible : n.Every Scalar.Finite (fun v => v.letter.isAlpha = true) S) : n.Rebuilt := by
  have written : ∀ {t : Term α (Node α)}, t.Canonical →
      t.Every Scalar.Finite (fun v => v.letter.isAlpha = true) S →
      (∀ f ∈ t.realFactors ++ t.realDivisors,
        f.base.Every Scalar.Finite (fun v => v.letter.isAlpha = true) S →
          f.base.Rebuilt) →
      (∀ f ∈ t.realFactors ++ t.realDivisors,
        f.exponent.Every Scalar.Finite (fun v => v.letter.isAlpha = true) S →
          f.exponent.Rebuilt) → t.Written := by
    intro t canonical entire bases exponents
    obtain ⟨⟨numerator, denominator⟩, factors, divisors⟩ := Term.every_iff.1 entire
    have parts := List.forall_mem_append.2 ⟨factors, divisors⟩
    exact Term.written_of_rebuilt canonical numerator denominator
      (fun f hf => bases f hf (Factor.every_iff.1 (parts f hf)).1)
      fun f hf => exponents f hf (Factor.every_iff.1 (parts f hf)).2
  induction h with
  | number x => exact rebuilt_number (every_number.1 legible)
  | constant c negative => exact rebuilt_constant c negative
  | var v negative other => exact rebuilt_var (every_var.1 legible) other negative
  | power f base exponent raised nonzero other ihb ihe =>
    obtain ⟨below, above⟩ := Factor.every_iff.1 legible
    exact rebuilt_power raised other (ihb below) (ihe above)
  | product t bases exponents regular irreducible ihb ihe =>
    exact rebuilt_product regular (written regular.toCanonical legible ihb ihe) irreducible
  | sum t ts bases exponents several steady regular follows joins ihb ihe =>
    have terms := (every_sum.1 legible).2
    refine rebuilt_sum several steady (fun u hu => ?_) regular follows joins
    exact written (steady.steady u hu).canonical (terms u hu) (ihb u hu) (ihe u hu)
  | unary f x argument ih => exact rebuilt_unary (ih (every_unary.1 legible))
  | binary f x y left right ihx ihy =>
    obtain ⟨first, second⟩ := every_binary.1 legible
    exact rebuilt_binary (ihx first) (ihy second)

/-- The text of a parsed expression with finite numbers is read as the expression itself, if it is
recoverable. -/
theorem parse_toText {settings : ParserSettings} {text : String} {n : Node α}
    (parsed : settings.parse text = .ok n)
    (finite : n.Every Scalar.Finite (fun _ => True) (fun _ => True)) (recoverable : n.Recoverable) :
    ({} : ParserSettings).parse n.toText = .ok n ∧ n.same n = true := by
  have legible := finite.of_numbers (settings.every_parse text n parsed)
  have read := (rebuilt recoverable legible).whole.parse_eq
  rw [reduce, recoverable.reduceAt_eq] at read
  exact ⟨read, same_equivalence.refl n n.comparable⟩

/-- The terms of `x^2 - x + 1/y` are written in another order here. -/
theorem parse_toText_sum :
    let settings : ParserSettings := {}
    let x : Node Fraction := .var ⟨'x', 0⟩ false
    let y : Node Fraction := .var ⟨'y', 0⟩ false
    let n : Node Fraction := .sum [⟨1, 1, [⟨x, .number 2⟩], [Factor.empty]⟩,
      ⟨-1, 1, [⟨x, .number 1⟩], [Factor.empty]⟩, ⟨1, 1, [Factor.empty], [⟨y, .number 1⟩]⟩]
    settings.parse "1/y+x*x-x" = .ok n ∧ n.Every Scalar.Finite (fun _ => True) (fun _ => True) ∧
      n.Recoverable ∧ n.toText = "x^2 - x + 1/y" ∧ settings.parse n.toText = .ok n ∧
      n.same n = true := by
  intro settings x y n
  have parsed : settings.parse "1/y+x*x-x" = .ok n := by
    have lexed : settings.symbols "1/y+x*x-x" =
        .ok (["1", "/", "y", "+", "x", "*", "x", "-", "x"].map Symbol.mk) := by decide +kernel
    have converted : Postfix.ofInfix settings.brackets settings.maxDepth
        (["1", "/", "y", "+", "x", "*", "x", "-", "x"].map Symbol.mk) =
          .ok (["1", "y", "/", "x", "x", "*", "x", "-", "+"].map Symbol.mk) := by decide +kernel
    refine bind_eq_ok.2 ⟨_, lexed, bind_eq_ok.2 ⟨_, converted, ?_⟩⟩
    with_unfolding_all rfl
  let square : Term Fraction (Node Fraction) := ⟨1, 1, [⟨x, .number 2⟩], [Factor.empty]⟩
  let opposite : Term Fraction (Node Fraction) := ⟨-1, 1, [⟨x, .number 1⟩], [Factor.empty]⟩
  let single : Term Fraction (Node Fraction) := ⟨1, 1, [⟨x, .number 1⟩], [Factor.empty]⟩
  let inverse : Term Fraction (Node Fraction) := ⟨1, 1, [Factor.empty], [⟨y, .number 1⟩]⟩
  have square_parts : square.realFactors ++ square.realDivisors = [⟨x, .number 2⟩] := by
    with_unfolding_all rfl
  have opposite_parts : opposite.realFactors ++ opposite.realDivisors = [⟨x, .number 1⟩] := by
    with_unfolding_all rfl
  have single_parts : single.realFactors ++ single.realDivisors = [⟨x, .number 1⟩] := by
    with_unfolding_all rfl
  have inverse_parts : inverse.realFactors ++ inverse.realDivisors = [⟨y, .number 1⟩] := by
    with_unfolding_all rfl
  have power : ∀ (v : Variable) (k : Fraction), 0 < k →
      (⟨.var v false, .number k⟩ : Factor (Node Fraction)).Steady := by
    intro v k positive
    exact Factor.steady_var v (decide_eq_false (not_lt.2 positive.le)) positive.ne'
  have square_steady : square.Steady := Term.steady_of_single square_parts (power _ 2 two_pos)
    (by with_unfolding_all rfl) (by decide +kernel) (by decide +kernel)
  have opposite_steady : opposite.Steady := Term.steady_of_single opposite_parts
    (power _ 1 one_pos) (by with_unfolding_all rfl) (by decide +kernel) (by decide +kernel)
  have single_steady : single.Steady := Term.steady_of_single single_parts (power _ 1 one_pos)
    (by with_unfolding_all rfl) (by decide +kernel) (by decide +kernel)
  have inverse_steady : inverse.Steady := Term.steady_of_single inverse_parts (power _ 1 one_pos)
    (by with_unfolding_all rfl) (by decide +kernel) (by decide +kernel)
  have steady : SteadySum [square, opposite, inverse] := by
    constructor
    · simp
    · simp [square_steady, opposite_steady, inverse_steady]
    · simp only [List.forall_mem_cons]
      with_unfolding_all exact ⟨rfl, rfl, rfl, List.forall_mem_nil _⟩
    · simp only [List.pairwise_cons, List.forall_mem_cons]
      refine ⟨⟨?_, ?_, List.forall_mem_nil _⟩, ⟨?_, List.forall_mem_nil _⟩, List.forall_mem_nil _,
        .nil⟩ <;> decide +kernel
    · simp only [List.pairwise_cons, List.forall_mem_cons]
      refine ⟨⟨?_, ?_, List.forall_mem_nil _⟩, ⟨?_, List.forall_mem_nil _⟩, List.forall_mem_nil _,
        .nil⟩ <;> decide +kernel
  have finite : n.Every Scalar.Finite (fun _ => True) (fun _ => True) := by
    have one : Scalar.Finite (1 : Fraction) := ReadableScalar.finite_one
    have two : Scalar.Finite (2 : Fraction) := show Fraction.isWhole 2 = true by decide
    have power : ∀ (v : Variable) {k : Fraction}, Scalar.Finite k → Factor.Every Scalar.Finite
        (fun _ => True) (fun _ => True) (⟨.var v false, .number k⟩ : Factor (Node Fraction)) :=
      fun v k exponent => .power _ (.var _ _ trivial) (.number _ exponent)
    refine .sum _ trivial ?_
    simp only [List.forall_mem_cons]
    exact ⟨Term.every_of_single square_parts (power _ two) one one,
      Term.every_of_single opposite_parts (power _ one) (ReadableScalar.finite_neg one) one,
      Term.every_of_single inverse_parts (power _ one) one one, List.forall_mem_nil _⟩
  have recoverable : n.Recoverable := by
    have name : x.Recoverable := .var _ _ (by decide)
    have name' : y.Recoverable := .var _ _ (by decide)
    refine .sum square [opposite, inverse] ?_ ?_ (by simp) steady ?_ ?_ ?_
    · simp only [List.forall_mem_cons, square_parts, opposite_parts, inverse_parts]
      exact ⟨⟨name, List.forall_mem_nil _⟩, ⟨name, List.forall_mem_nil _⟩,
        ⟨name', List.forall_mem_nil _⟩, List.forall_mem_nil _⟩
    · simp only [List.forall_mem_cons, square_parts, opposite_parts, inverse_parts]
      exact ⟨⟨.number 2, List.forall_mem_nil _⟩, ⟨.number 1, List.forall_mem_nil _⟩,
        ⟨.number 1, List.forall_mem_nil _⟩, List.forall_mem_nil _⟩
    · exact square_steady.canonical.regular_of_single square_steady.nonzero square_parts rfl
    · have turned : opposite.negate = single := by with_unfolding_all rfl
      simp only [List.forall_mem_cons]
      refine ⟨?_, ?_, List.forall_mem_nil _⟩
      · rw [Term.Follows, if_pos (by decide +kernel), turned]
        refine ⟨single_steady.canonical.regular_of_single single_steady.nonzero single_parts rfl, ?_, ?_⟩
        · exact fun remainder => absurd remainder (by decide +kernel)
        · exact fun minus => absurd minus (by decide +kernel)
      · rw [Term.Follows, if_neg (by decide +kernel)]
        exact inverse_steady.canonical.regular_of_single inverse_steady.nonzero inverse_parts rfl
    · rw [Joins, if_pos (by decide +kernel)]
      refine ⟨?_, ?_⟩
      · rintro t u ⟨⟩ ⟨⟩
        with_unfolding_all exact ⟨rfl, rfl⟩
      · rw [Joins, if_neg (by decide +kernel)]
        exact ⟨fun t u first => (by cases first), fun t u first => (by simp at first)⟩
  obtain ⟨read, same⟩ := parse_toText parsed finite recoverable
  exact ⟨parsed, finite, recoverable, by decide +kernel, read, same⟩

/-- Single terms that are fractions: `x + y - 1/x` is the sum of `x` and a difference, which is read
over a common denominator. -/
theorem parse_toText_fraction :
    let settings : ParserSettings := {}
    let x : Node Fraction := .var ⟨'x', 0⟩ false
    let y : Node Fraction := .var ⟨'y', 0⟩ false
    let n : Node Fraction := .sum [⟨1, 1, [⟨x, .number 1⟩], [Factor.empty]⟩,
      ⟨1, 1, [⟨y, .number 1⟩], [Factor.empty]⟩, ⟨-1, 1, [Factor.empty], [⟨x, .number 1⟩]⟩]
    settings.parse "(x+y)-1/x" = .ok n ∧ n.Every Scalar.Finite (fun _ => True) (fun _ => True) ∧
      n.toText = "x + y - 1/x" ∧
      ∃ m, settings.parse n.toText = .ok m ∧ m.toText = "(x^2 + y*x - 1)/x" ∧ n.same m = false := by
  intro settings x y n
  have parsed : settings.parse "(x+y)-1/x" = .ok n := by
    have lexed : settings.symbols "(x+y)-1/x" =
        .ok (["(", "x", "+", "y", ")", "-", "1", "/", "x"].map Symbol.mk) := by decide +kernel
    have converted : Postfix.ofInfix settings.brackets settings.maxDepth
        (["(", "x", "+", "y", ")", "-", "1", "/", "x"].map Symbol.mk) =
          .ok (["x", "y", "+", "1", "x", "/", "-"].map Symbol.mk) := by decide +kernel
    refine bind_eq_ok.2 ⟨_, lexed, bind_eq_ok.2 ⟨_, converted, ?_⟩⟩
    with_unfolding_all rfl
  have finite : n.Every Scalar.Finite (fun _ => True) (fun _ => True) := by
    have one : Scalar.Finite (1 : Fraction) := ReadableScalar.finite_one
    have power : ∀ v : Variable, Factor.Every Scalar.Finite (fun _ => True) (fun _ => True)
        (⟨.var v false, .number 1⟩ : Factor (Node Fraction)) :=
      fun v => .power _ (.var _ _ trivial) (.number _ one)
    refine .sum _ trivial ?_
    simp only [List.forall_mem_cons]
    refine ⟨Term.every_of_single ?_ (power ⟨'x', 0⟩) one one,
      Term.every_of_single ?_ (power ⟨'y', 0⟩) one one,
      Term.every_of_single ?_ (power ⟨'x', 0⟩) (ReadableScalar.finite_neg one) one,
      List.forall_mem_nil _⟩ <;> with_unfolding_all rfl
  have reread : (do
      let m : Node Fraction ← settings.parse n.toText
      return (m.toText, n.same m)) = .ok ("(x^2 + y*x - 1)/x", false) := by
    decide +kernel
  obtain ⟨m, read, shown⟩ := bind_eq_ok.1 reread
  obtain ⟨text, other⟩ := Prod.mk.inj (Except.ok.inj shown)
  exact ⟨parsed, finite, by decide +kernel, m, read, text, other⟩

end Node

end SymbolicAlgebra
