/-
  What the text of an expression says
  ===================================
  The text of a legible expression spells a phrase whose number is the result of the
  expression (**`Node.printed`**). The statement that is proved for every node has a
  part for each place where the printer can put its text: as an operand, in front of a
  power, behind one, as a factor, as a term of a sum (`Node.Printed`). There is one
  lemma for each kind of node, and the nodes a printer visits are taken by their size.
-/
import SymbolicAlgebra.Proofs.Printing.Phrasing

namespace SymbolicAlgebra

open SymbolicAlgebra.Text Postfix

/-! ### Names of variables -/

/-- The digits of a number are read as the number. -/
theorem Decimal.ofDigits_toDigits (n : Nat) : Decimal.ofDigits (Nat.toDigits 10 n) = n := by
  have digits : ∀ c ∈ Nat.toDigits 10 n, c.isDigit = true :=
    fun c hc => Nat.isDigit_of_mem_toDigits (by decide) (by decide) hc
  have same : ∀ (cs : List Char), (∀ c ∈ cs, c.isDigit = true) → ∀ start,
      cs.foldl (fun n c => 10 * n + (digitValue? c).getD 0) start = Nat.ofDigitChars 10 cs start := by
    intro cs each
    induction cs with
    | nil => exact fun start => rfl
    | cons c cs ih =>
      obtain ⟨first, rest⟩ := List.forall_mem_cons.1 each
      intro start
      rw [List.foldl_cons, ih rest, digitValue?_of_isDigit first]
      rfl
  rw [Decimal.ofDigits, same _ digits, Nat.ofDigitChars_ten_toDigits]

theorem Decimal.isDecimal_of_mem_toDigits {n : Nat} {d : Char} (inside : d ∈ Nat.toDigits 10 n) :
    isDecimal d = true := by
  rw [isDecimal, digitValue?_of_isDigit (Nat.isDigit_of_mem_toDigits (by decide) (by decide) inside)]
  rfl

/-- A variable is read back from its name, whatever script its letter is from. -/
theorem Variable.ofName?_name {v : Variable} (letter : isLetter v.letter = true) :
    ofName? v.name = .ok v := by
  obtain ⟨c, k⟩ := v
  unfold name
  dsimp only
  split
  · rename_i zero
    subst zero
    exact ofName?_letter letter
  · rw [ofName?_subscript letter Nat.toDigits_ne_nil fun d => Decimal.isDecimal_of_mem_toDigits,
      Decimal.ofDigits_toDigits]

/-- The name of a variable has the form of one. -/
theorem Variable.name_spec {v : Variable} (letter : v.letter.isAlpha = true) :
    isVariableName v.name = true ∧ '\n' ∉ v.name.toList ∧ ofName? v.name = .ok v := by
  refine and_assoc.1 ⟨?_, ofName?_name (isLetter_of_isAlpha letter)⟩
  obtain ⟨c, k⟩ := v
  dsimp only at letter
  have visible : c ≠ '\n' := by
    rintro rfl
    exact absurd letter (by decide)
  unfold name
  dsimp only
  split
  · have single : '\n' ∉ (String.singleton c).toList := by simpa using visible.symm
    refine ⟨?_, single⟩
    rw [isVariableName, withoutLineEnd_eq_self single, String.toList_singleton]
    exact letter
  · have decimals : ∀ d ∈ Nat.toDigits 10 k, isDecimal d = true :=
      fun d => Decimal.isDecimal_of_mem_toDigits
    have single : '\n' ∉ (String.ofList (c :: '_' :: Nat.toDigits 10 k)).toList := by
      rw [String.toList_ofList]
      intro inside
      rcases List.mem_cons.1 inside with same | inside
      · exact visible same.symm
      · rcases List.mem_cons.1 inside with same | inside
        · exact absurd same (by decide)
        · exact isDecimal_ne (decimals _ inside) (by decide) rfl
    refine ⟨?_, single⟩
    rw [isVariableName, withoutLineEnd_eq_self single, String.toList_ofList]
    simp [letter, Nat.toDigits_ne_nil]
    exact decimals

/-- A name starts with its letter, and an underscore follows if anything does. -/
theorem Variable.toList_name (v : Variable) :
    ∃ run, v.name.toList = v.letter :: run ∧ (run = [] ∨ ∃ digits, run = '_' :: digits) := by
  unfold name
  split
  · exact ⟨[], String.toList_singleton v.letter, .inl rfl⟩
  · exact ⟨_, String.toList_ofList, .inr ⟨_, rfl⟩⟩

/-- What starts with a letter is no numeral. -/
theorem Symbol.numeral?_of_isAlpha {text : String} {c : Char} {run : List Char}
    (shape : text.toList = c :: run) (alpha : c.isAlpha = true) (single : '\n' ∉ text.toList) :
    (⟨text⟩ : Symbol).numeral? = none := by
  obtain ⟨notNumeral, -⟩ := Phrase.plain_of_isAlpha alpha
  have notDecimal : isDecimal c = false := by
    rw [← Bool.not_eq_true]
    intro decimal
    simp [Token.isNumeralChar, isDigit_of_isDecimal decimal] at notNumeral
  have notPoint : c ≠ '.' := by
    intro point
    rw [point] at notNumeral
    exact absurd notNumeral (by decide)
  rw [Symbol.numeral?, withoutLineEnd_eq_self single, shape]
  simp only [List.takeWhile_cons, List.dropWhile_cons, notDecimal]
  split
  · simp_all
  · simp_all
  · rfl

/-- A name is no numeral. -/
theorem Variable.numeral?_name {v : Variable} (letter : v.letter.isAlpha = true) :
    (⟨v.name⟩ : Symbol).numeral? = none := by
  obtain ⟨run, shape, -⟩ := v.toList_name
  exact Symbol.numeral?_of_isAlpha shape letter (name_spec letter).2.1

variable {α : Type} [FieldScalar α]

namespace Node

/-! ### What is to be shown of a text -/

/-- The text spells a phrase that comes to what the expression comes to. -/
def Reads (n : Node α) (bare : Bool) (level : Level) (text : String) : Prop :=
  Says bare level text (Node.Computable · n) (Node.result · n)

/-- The text of the expression is right wherever the printer puts it. -/
structure Printed (n : Node α) : Prop where
  operand : n.isAtomic = true → n.isNegative = false → n.Reads true .primary n.toText
  leaf : n.isAtomic = true → Signs .unary n.toText (Node.Computable · n) (Node.result · n)
  power : n.isPower = true → n.Reads true .power n.toText
  opposite : ∀ f, n = .power f → f.exponent.isOne = true →
    Says false .power ("-" ++ n.toText) (Node.Computable · n) fun s => -n.result s
  product : n.isLongSum = false → Signs .product n.toText (Node.Computable · n) (Node.result · n)
  whole : n.Reads false .sum n.toText

omit [FieldScalar α] in
theorem kinds_of_isAtomic {n : Node α} (atomic : n.isAtomic = true) :
    n.isPower = false ∧ n.isLongSum = false := by
  cases n with
  | power f => cases atomic
  | sum ts => cases atomic
  | _ => exact ⟨rfl, rfl⟩

/-- An operand with or without a sign. -/
theorem printed_leaf {n : Node α} (atomic : n.isAtomic = true) {text : String}
    {v : Scope α → α} (shape : n.toText = signedText n.isNegative text)
    (value : ∀ s, n.Computable s → n.result s = signed n.isNegative (v s))
    (h : Says true .primary text (Node.Computable · n) v) : n.Printed := by
  obtain ⟨notPower, short⟩ := kinds_of_isAtomic atomic
  have leaf : Signs .unary n.toText (Node.Computable · n) (Node.result · n) := by
    rw [shape]
    exact (Signs.ofPrimary h _).mono fun s computable => ⟨computable, (value s computable).symm⟩
  have product := leaf.lift fun g => g.ofUnary.ofPower
  refine ⟨fun _ plain => ?_, fun _ => leaf, fun power => ?_, ?_, fun _ => product,
    product.toSays.ofProduct⟩
  · rw [Reads, shape, plain]
    refine h.mono fun s computable => ⟨computable, ?_⟩
    rw [value s computable, plain]
    rfl
  · rw [notPower] at power
    cases power
  · rintro f rfl
    cases notPower

section Leaves

variable [ReadableScalar α]

theorem printed_number {x : α} (finite : Scalar.Finite x) : (Node.number x).Printed := by
  have text : (Node.number x).toText = Scalar.text x := by rw [toText]
  have value : ∀ s, (Node.number x).result s = x := fun s => by rw [result]
  cases negative : Scalar.lt x 0 with
  | false =>
    have minus : (Node.number x).isNegative = false := by rw [isNegative, negative]
    refine printed_leaf (v := fun _ => x) rfl ?_ (fun s _ => ?_) (Says.numeral finite negative)
    · rw [text, minus]
      rfl
    · rw [value, minus]
      rfl
  | true =>
    have minus : (Node.number x).isNegative = true := by rw [isNegative, negative]
    refine printed_leaf (v := fun _ => -x) rfl ?_ (fun s _ => ?_)
      (Says.numeral (ReadableScalar.finite_neg finite) (ReadableScalar.neg_lt_zero negative))
    · rw [text, minus]
      exact ReadableScalar.text_negative finite negative
    · rw [value, minus]
      exact (neg_neg x).symm

end Leaves

theorem printed_constant (c : Constant) (negative : Bool) :
    (Node.constant c negative : Node α).Printed := by
  have minus : (Node.constant c negative : Node α).isNegative = negative := by rw [isNegative]
  refine printed_leaf (v := fun _ => Scalar.constant c) rfl ?_ (fun s _ => ?_)
    ⟨_, Phrase.spelled_constant c, fun s computable => ?_⟩
  · rw [toText, minus]
  · rw [result, minus]
  · cases computable with
    | constant _ _ collapsed =>
      rw [Phrase.number?, operandValue?, collapsed]
      cases c <;> rfl

theorem printed_var {v : Variable} (letter : v.letter.isAlpha = true) (negative : Bool) :
    (Node.var v negative : Node α).Printed := by
  obtain ⟨formed, single, read⟩ := Variable.name_spec letter
  have minus : (Node.var v negative : Node α).isNegative = negative := by rw [isNegative]
  refine printed_leaf (v := fun s => (s.lookup v.name).getD 0) rfl ?_ (fun s _ => ?_)
    ⟨_, Phrase.spelled_variable formed single, fun s computable => ?_⟩
  · rw [toText, minus]
  · rw [result, minus]
  · cases computable with
    | var _ _ x bound other =>
      have found := Scope.lookup_of_get bound
      rw [Phrase.number?, operandValue?, Variable.numeral?_name letter, other]
      dsimp only
      rw [read]
      dsimp only
      rw [bound, found]
      rfl

/-! ### Powers -/

/-- The base of a power and the operand of a factorial. -/
theorem Printed.reads_operand {n : Node α} (h : n.Printed) :
    n.Reads true .primary (bracketed (n.isAtomic && !n.isNegative) n.toText) := by
  unfold Node.bracketed
  split
  · rename_i bare
    rw [Bool.and_eq_true, Bool.not_eq_true'] at bare
    exact h.operand bare.1 bare.2
  · exact h.whole.bracketed

/-- The exponent of a power. -/
theorem Printed.reads_exponent {n : Node α} (h : n.Printed) :
    n.Reads true .power (bracketed ((n.isAtomic || n.isPower) && !n.isNegative) n.toText) := by
  unfold Node.bracketed
  split
  · rename_i bare
    rw [Bool.and_eq_true, Bool.or_eq_true, Bool.not_eq_true'] at bare
    rcases bare.1 with atomic | power
    · exact (h.operand atomic bare.2).ofPrimary.ofUnary
    · exact h.power power
  · exact h.whole.bracketed.ofPrimary.ofUnary

variable [LawfulScalar α] {s : Scope α}

/-- Powers of one make no difference. -/
theorem result_unwrapped {n : Node α} (h : n.Computable s) :
    n.unwrapped.Computable s ∧ n.unwrapped.result s = n.result s := by
  fun_induction unwrapped n with
  | case1 base x one ih =>
    obtain ⟨computable, -⟩ := Factor.computable_iff.1 h
    obtain ⟨inner, value⟩ := ih computable
    refine ⟨inner, ?_⟩
    rw [value, result, result, eq_of_beq one, LawfulScalar.power_one]
  | case2 => exact ⟨h, rfl⟩
  | case3 => exact ⟨h, rfl⟩

/-- A power is written as its base alone, or as its base and its exponent. -/
theorem printed_power {f : Factor (Node α)} (hb : f.base.unwrapped.Printed)
    (he : f.exponent.unwrapped.Printed) : (Node.power f).Printed := by
  have text : (Node.power f).toText = powerText f.base.unwrapped f.base.unwrapped.toText
      f.exponent.unwrapped f.exponent.unwrapped.toText := by
    rw [toText]
  have parts : ∀ s, (Node.power f).Computable s →
      f.base.unwrapped.Computable s ∧ f.exponent.unwrapped.Computable s ∧
        (Node.power f).result s =
          Scalar.power (f.base.unwrapped.result s) (f.exponent.unwrapped.result s) := by
    intro s computable
    obtain ⟨base, exponent, -⟩ := Factor.computable_iff.1 computable
    obtain ⟨below, value⟩ := result_unwrapped base
    obtain ⟨above, value'⟩ := result_unwrapped exponent
    refine ⟨below, above, ?_⟩
    rw [value, value', ← Factor.result_eq]
    rfl
  have base : Says true .primary
      (bracketed (f.base.unwrapped.isAtomic && !f.base.unwrapped.isNegative)
        f.base.unwrapped.toText)
      ((Node.power f).Computable ·) fun s => f.base.unwrapped.result s :=
    hb.reads_operand.mono fun s computable => ⟨(parts s computable).1, rfl⟩
  have exponent : Says true .power
      (bracketed ((f.exponent.unwrapped.isAtomic || f.exponent.unwrapped.isPower) &&
        !f.exponent.unwrapped.isNegative) f.exponent.unwrapped.toText)
      ((Node.power f).Computable ·) fun s => f.exponent.unwrapped.result s :=
    he.reads_exponent.mono fun s computable => ⟨(parts s computable).2.1, rfl⟩
  obtain ⟨written, opposite⟩ : (Node.power f).Reads true .power (Node.power f).toText ∧
      (f.exponent.isOne = true → Says false .power ("-" ++ (Node.power f).toText)
        (Node.Computable · (.power f)) fun s => -(Node.power f).result s) := by
    rw [text]
    unfold powerText
    dsimp only
    split
    · rename_i unit
      have value : ∀ s, (Node.power f).Computable s →
          f.base.unwrapped.result s = (Node.power f).result s := by
        intro s computable
        rw [(parts s computable).2.2, result_unit unit, LawfulScalar.power_one]
      refine ⟨base.ofPrimary.ofUnary.mono ?_, fun _ => base.negated.ofUnary.mono ?_⟩
      · exact fun s computable => ⟨computable, value s computable⟩
      · exact fun s computable => ⟨computable, congrArg _ (value s computable)⟩
    · have shape : ∀ a b c : String, "-" ++ (a ++ b ++ c) = "-" ++ a ++ (b ++ c) := by
        intro a b c
        simp only [String.append_assoc]
      rw [shape, String.append_assoc]
      refine ⟨(base.ofPrimary.raised exponent).mono ?_, fun one =>
        (base.negated.raised exponent).mono ?_⟩
      · exact fun s computable => ⟨computable, (parts s computable).2.2.symm⟩
      · -- the exponent comes to one, so it makes no difference what the sign stands on
        intro s computable
        obtain ⟨-, above, value⟩ := parts s computable
        obtain ⟨-, exponent, -⟩ := Factor.computable_iff.1 computable
        refine ⟨computable, ?_⟩
        rw [value, (result_unwrapped exponent).2, (result_of_shown exponent).1 one,
          LawfulScalar.power_one, LawfulScalar.power_one]
  refine ⟨?_, ?_, fun _ => written, ?_, fun _ => .inl written.ofPower, written.ofPower.ofProduct.weaken⟩
  · rintro ⟨⟩
  · rintro ⟨⟩
  · rintro g ⟨⟩ one
    exact opposite one

/-! ### Calls and operators -/

theorem printed_unary {f : Unary} {x : Node α} (hx : x.Printed) (operand : x.unwrapped.Printed) :
    (Node.unary f x).Printed := by
  have argument : ∀ s, (Node.unary f x).Computable s → x.Computable s := by
    intro s computable
    cases computable with
    | unary _ _ argument => exact argument
  have value : ∀ s, (Node.unary f x).result s = Scalar.unary f (x.result s) := fun s => by
    rw [result]
  have said : Says true .primary (Node.unary f x).toText (Node.Computable · (.unary f x))
      (Node.result · (.unary f x)) := by
    rw [toText]
    split
    · rename_i operator
      obtain rfl : f = .factorial := by
        cases f <;> first | rfl | cases operator
      refine operand.reads_operand.factorial.mono fun s computable => ?_
      obtain ⟨inner, same⟩ := result_unwrapped (argument s computable)
      exact ⟨inner, by rw [value, same]⟩
    · rename_i named
      have registered : Function.unary f ∈ Function.registered :=
        (Function.mem_registered _).2 ⟨by rintro ⟨⟩; exact named rfl, by rintro ⟨⟩⟩
      refine (Says.unaryCall (Function.ofName?_name registered) hx.whole).mono fun s computable => ?_
      exact ⟨argument s computable, (value s).symm⟩
  have positive : (Node.unary f x).isNegative = false := by simp [isNegative]
  refine printed_leaf rfl ?_ (fun s _ => ?_) said
  · rw [positive]
    rfl
  · rw [positive]
    rfl

omit [LawfulScalar α] in
/-- A text that stands where a factor of a product can stand. -/
theorem printed_of_product {n : Node α} (leaf : n.isAtomic = false) (power : n.isPower = false)
    (h : Signs .product n.toText (Node.Computable · n) (Node.result · n)) : n.Printed := by
  refine ⟨fun atomic => ?_, fun atomic => ?_, fun other => ?_, ?_, fun _ => h, h.toSays.ofProduct⟩
  · rw [leaf] at atomic
    cases atomic
  · rw [leaf] at atomic
    cases atomic
  · rw [power] at other
    cases other
  · rintro f rfl
    cases power

omit [LawfulScalar α] in
/-- The divisor of a remainder. -/
theorem Printed.reads_divisor {n : Node α} (h : n.Printed) :
    n.Reads false .power (bracketed (n.isAtomic || n.isPower) n.toText) := by
  unfold Node.bracketed
  split
  · rename_i bare
    rcases (Bool.or_eq_true _ _).mp bare with atomic | power
    · exact (h.leaf atomic).toSays.ofUnary
    · exact (h.power power).weaken
  · exact h.whole.bracketed.ofPrimary.ofUnary

theorem printed_binary {f : Binary} {x y : Node α} (hx : x.Printed) (hy : y.Printed)
    (left : x.unwrapped.Printed) (right : y.unwrapped.Printed) : (Node.binary f x y).Printed := by
  have arguments : ∀ s, (Node.binary f x y).Computable s → x.Computable s ∧ y.Computable s := by
    intro s computable
    cases computable with
    | binary _ _ _ left right => exact ⟨left, right⟩
  have value : ∀ s, (Node.binary f x y).result s = Scalar.binary f (x.result s) (y.result s) :=
    fun s => by rw [result]
  cases operator : f.isOperator with
  | true =>
    obtain rfl : f = .remainder := by
      cases f <;> first | rfl | cases operator
    have divided : Signs .product (bracketed (!x.unwrapped.isLongSum) x.unwrapped.toText)
        (Node.Computable · (.binary .remainder x y)) (Node.result · x) := by
      have same : ∀ s, (Node.binary .remainder x y).Computable s →
          x.unwrapped.Computable s ∧ x.unwrapped.result s = x.result s :=
        fun s computable => result_unwrapped (arguments s computable).1
      unfold Node.bracketed
      split
      · rename_i short
        exact (left.product (by simpa using short)).mono same
      · exact .inl (left.whole.bracketed.ofPrimary.ofUnary.ofPower.mono same)
    have divisor : Says false .power
        (bracketed (y.unwrapped.isAtomic || y.unwrapped.isPower) y.unwrapped.toText)
        (Node.Computable · (.binary .remainder x y)) (Node.result · y) :=
      right.reads_divisor.mono fun s computable => result_unwrapped (arguments s computable).2
    refine printed_of_product rfl rfl ?_
    rw [toText, operator, if_pos rfl, remainderText, String.append_assoc]
    refine (divided.extend (r := fun s m => Scalar.binary .remainder m (y.result s))
      (fun h => h.remainder divisor) fun s m => LawfulScalar.neg_remainder m _).mono ?_
    exact fun s computable => ⟨computable, (value s).symm⟩
  | false =>
    have registered : Function.binary f ∈ Function.registered := by
      refine (Function.mem_registered _).2 ⟨by rintro ⟨⟩, ?_⟩
      rintro ⟨⟩
      cases operator
    have said : Says true .primary (Node.binary f x y).toText (Node.Computable · (.binary f x y))
        (Node.result · (.binary f x y)) := by
      rw [toText, operator, if_neg Bool.false_ne_true]
      refine (Says.binaryCall (Function.ofName?_name registered)
        (hx.whole.mono fun s computable => ⟨(arguments s computable).1, rfl⟩)
        (hy.whole.mono fun s computable => ⟨(arguments s computable).2, rfl⟩)).mono ?_
      exact fun s computable => ⟨computable, (value s).symm⟩
    have positive : (Node.binary f x y).isNegative = false := by simp [isNegative]
    refine printed_leaf ?_ ?_ (fun s _ => ?_) said
    · rw [isAtomic, operator]
      rfl
    · rw [positive]
      rfl
    · rw [positive]
      rfl

/-! ### Products -/

/-- The texts of some factors with a sign in front of each. -/
def timesTexts (fs : List (Factor (Node α))) : String :=
  String.join (fs.map fun f => "*" ++ f.toText)

omit [LawfulScalar α] in
theorem intercalate_times (first : String) (fs : List (Factor (Node α))) :
    "*".intercalate (first :: fs.map Factor.toText) = first ++ timesTexts fs := by
  induction fs generalizing first with
  | nil => simp [timesTexts]
  | cons f fs ih =>
    rw [List.map_cons, String.intercalate_cons_cons, ih]
    simp [timesTexts, String.append_assoc]

/-- The text of the factors of a term: the first one is written without its exponent where it is
an operator and nothing is in front of it. -/
def factorTexts (numerator : α) : List (Factor (Node α)) → List String
  | [] => []
  | f :: fs =>
    (if numerator == 1 && f.base.isOperatorCall && f.isUnit then f.base.toText else f.toText) ::
      fs.map Factor.toText

omit [LawfulScalar α] in
theorem toText_product (t : Term α (Node α)) : t.toText = fractionText t.denominator t.realDivisors
    (productText t.numerator t.realFactors (factorTexts t.numerator t.realFactors))
    (productText t.denominator t.realDivisors (t.realDivisors.map Factor.toText)) := by
  have texts : ∀ fs : List (Factor (Node α)),
      (fs.attach.map fun f => (Node.power f.1).toText) = fs.map Factor.toText :=
    fun fs => List.attach_map_val (f := Factor.toText)
  rw [Term.toText, toText]
  dsimp only
  congr 2
  · split
    · rename_i none
      rw [none]
      rfl
    · rename_i f fs whole
      rw [whole, factorTexts, texts]
      rfl
  · exact texts _

omit [LawfulScalar α] in
/-- Factors that are multiplied to what is written in front of them. -/
theorem says_times {bare : Bool} {text : String} {D : Scope α → Prop} {v : Scope α → α}
    {fs : List (Factor (Node α))} (h : Says bare .product text D v)
    (each : ∀ f ∈ fs, (Node.power f).Printed)
    (computable : ∀ s, D s → ∀ f ∈ fs, f.Computable s) :
    Says bare .product (text ++ timesTexts fs) D
      fun s => v s * (fs.map (Factor.result s)).prod := by
  induction fs generalizing text v with
  | nil => simpa [timesTexts] using h
  | cons f fs ih =>
    obtain ⟨first, rest⟩ := List.forall_mem_cons.1 each
    have factor : Says true .power f.toText D fun s => f.result s :=
      (first.power rfl).mono fun s defined => ⟨computable s defined f List.mem_cons_self, rfl⟩
    have whole := ih (h.times factor) rest fun s defined g hg =>
      computable s defined g (List.mem_cons_of_mem f hg)
    have text' : text ++ timesTexts (f :: fs) = text ++ ("*" ++ f.toText) ++ timesTexts fs := by
      simp [timesTexts, String.append_assoc]
    rw [text']
    refine whole.mono fun s defined => ⟨defined, ?_⟩
    rw [List.map_cons, List.prod_cons, mul_assoc]

omit [LawfulScalar α] in
/-- A number right in front of a text that starts no numeral. -/
theorem signs_juxtaposed [ReadableScalar α] {c : α} (finite : Scalar.Finite c) {text : String}
    {D : Scope α → Prop} {v : Scope α → α} (h : Says true .power text D v)
    (apart : startsNumber text = false) :
    Signs .product (Scalar.text c ++ text) D fun s => c * v s := by
  cases negative : Scalar.lt c 0 with
  | false => exact .inl (Says.juxtaposed finite negative h apart).1
  | true =>
    obtain ⟨bare, whole⟩ := Says.juxtaposed (ReadableScalar.finite_neg finite)
      (ReadableScalar.neg_lt_zero negative) h apart
    have text' : Scalar.text c ++ text = "-" ++ (Scalar.text (-c) ++ text) := by
      rw [ReadableScalar.text_negative finite negative, String.append_assoc]
    refine .inr ⟨_, text', ?_, bare.mono fun s defined => ⟨defined, neg_mul c (v s)⟩⟩
    rw [text']
    exact whole.mono fun s defined => ⟨defined, by rw [neg_neg]⟩

omit [LawfulScalar α] in
/-- The text of a coefficient and factors. -/
theorem signs_productText [ReadableScalar α] {c : α} (finite : Scalar.Finite c)
    {fs : List (Factor (Node α))} {first : String} {D : Scope α → Prop} {f : Factor (Node α)}
    (hf : Signs .product first D (f.result ·)) (bare : c ≠ 1 → first = f.toText)
    (each : ∀ g ∈ f :: fs, (Node.power g).Printed)
    (computable : ∀ s, D s → ∀ g ∈ f :: fs, g.Computable s) :
    Signs .product (productText c (f :: fs) (first :: fs.map Factor.toText)) D
      fun s => c * ((f :: fs).map (Factor.result s)).prod := by
  obtain ⟨printed, rest⟩ := List.forall_mem_cons.1 each
  have later : ∀ s, D s → ∀ g ∈ fs, g.Computable s :=
    fun s defined g hg => computable s defined g (List.mem_cons_of_mem f hg)
  unfold productText
  dsimp only
  rw [intercalate_times]
  by_cases one : c = 1
  · rw [if_pos (by simpa using one)]
    refine (hf.extend (r := fun s x => x * (fs.map (Factor.result s)).prod)
      (fun h => says_times h rest later) fun s x => neg_mul x _).mono fun s defined => ⟨defined, ?_⟩
    rw [one, one_mul, List.map_cons, List.prod_cons]
  · obtain rfl := bare one
    have factor : Says true .power f.toText D fun s => f.result s :=
      (printed.power rfl).mono fun s defined => ⟨computable s defined f List.mem_cons_self, rfl⟩
    rw [if_neg (by simpa using one)]
    split
    · rename_i alone
      simp only [Bool.and_eq_true, Bool.not_eq_true', beq_iff_eq] at alone
      obtain ⟨⟨rfl, -⟩, unit⟩ := alone
      have opposite : Says false .power ("-" ++ f.toText) D fun s => -f.result s :=
        (printed.opposite f rfl unit).mono fun s defined =>
          ⟨computable s defined f List.mem_cons_self, rfl⟩
      have text' : "-" ++ (f.toText ++ timesTexts fs) = "-" ++ f.toText ++ timesTexts fs :=
        String.append_assoc.symm
      refine .inr ⟨_, rfl, ?_, (says_times factor.ofPower rest later).mono fun s defined => ?_⟩
      · rw [text']
        refine (says_times opposite.ofPower rest later).mono fun s defined => ⟨defined, ?_⟩
        rw [List.map_cons, List.prod_cons, neg_one_mul, neg_mul]
      · refine ⟨defined, ?_⟩
        dsimp only
        rw [List.map_cons, List.prod_cons, neg_one_mul, neg_neg]
    · split
      · have text' : Scalar.text c ++ "*" ++ (f.toText ++ timesTexts fs) =
            Scalar.text c ++ timesTexts (f :: fs) := by
          simp [timesTexts, String.append_assoc]
        rw [text']
        have number : Signs .product (Scalar.text c) D fun _ => c :=
          (Signs.number finite).lift fun h => h.ofUnary.ofPower
        exact number.extend (r := fun s x => x * ((f :: fs).map (Factor.result s)).prod)
          (fun h => says_times h each computable) fun s x => neg_mul x _
      · rename_i apart
        have text' : Scalar.text c ++ "" ++ (f.toText ++ timesTexts fs) =
            Scalar.text c ++ f.toText ++ timesTexts fs := by
          simp [String.append_assoc]
        rw [text']
        have starts : startsNumber f.toText = false := by simp_all
        refine ((signs_juxtaposed finite factor starts).extend
          (r := fun s x => x * (fs.map (Factor.result s)).prod)
          (fun h => says_times h rest later) fun s x => neg_mul x _).mono fun s defined =>
            ⟨defined, ?_⟩
        rw [List.map_cons, List.prod_cons, mul_assoc]

omit [LawfulScalar α] in
/-- The text of a fraction. -/
theorem signs_fractionText [ReadableScalar α] {d : α} (finite : Scalar.Finite d)
    {gs : List (Factor (Node α))} {above : String} {D : Scope α → Prop} {v : Scope α → α}
    (h : Signs .product above D v) (each : ∀ g ∈ gs, (Node.power g).Printed)
    (computable : ∀ s, D s → ∀ g ∈ gs, g.Computable s)
    (nonzero : ∀ s, D s → d * (gs.map (Factor.result s)).prod ≠ 0) :
    Signs .product (fractionText d gs above (productText d gs (gs.map Factor.toText))) D
      fun s => v s / (d * (gs.map (Factor.result s)).prod) := by
  unfold fractionText
  split
  · rename_i whole
    obtain ⟨one, none⟩ := (Bool.and_eq_true _ _).mp whole
    obtain rfl : gs = [] := List.isEmpty_iff.1 none
    refine h.mono fun s defined => ⟨defined, ?_⟩
    rw [eq_of_beq one, List.map_nil, List.prod_nil, mul_one, div_one]
  · rename_i fraction
    dsimp only
    have below : Says false .power
        (bracketed (!(1 < gs.length || !gs.isEmpty && !(d == 1)))
          (productText d gs (gs.map Factor.toText))) D
        fun s => d * (gs.map (Factor.result s)).prod := by
      cases gs with
      | nil =>
        have number : Says false .power (Scalar.text d) D fun _ => d :=
          (Signs.number finite).toSays.ofUnary
        exact number.mono fun s defined => ⟨defined, (mul_one d).symm⟩
      | cons g gs =>
        have first : Says true .power g.toText D fun s => g.result s :=
          ((each g List.mem_cons_self).power rfl).mono fun s defined =>
            ⟨computable s defined g List.mem_cons_self, rfl⟩
        have product : Signs .product (productText d (g :: gs) ((g :: gs).map Factor.toText)) D
            fun s => d * ((g :: gs).map (Factor.result s)).prod :=
          signs_productText finite (.inl first.ofPower) (fun _ => rfl) each computable
        unfold Node.bracketed
        split
        · rename_i single
          obtain ⟨alone, one⟩ : gs = [] ∧ d = 1 := by
            simpa [List.length_pos_iff] using single
          subst alone
          rw [one]
          have text : productText (1 : α) [g] [g.toText] = g.toText := by
            rw [productText]
            simp
          rw [List.map_cons, List.map_nil, text]
          exact first.weaken.mono fun s defined => ⟨defined, by simp⟩
        · exact product.toSays.ofProduct.bracketed.ofPrimary.ofUnary
    rw [String.append_assoc]
    exact h.extend (r := fun s x => x / (d * (gs.map (Factor.result s)).prod))
      (fun h => h.divided below nonzero) fun s x => neg_div _ x

/-- A term is written as its coefficient and its factors, over its divisors. -/
theorem printed_product [ReadableScalar α] {t : Term α (Node α)}
    (numerator : Scalar.Finite t.numerator) (denominator : Scalar.Finite t.denominator)
    (above : ∀ f ∈ t.realFactors, (Node.power f).Printed ∧ f.base.Printed)
    (below : ∀ g ∈ t.realDivisors, (Node.power g).Printed) : (Node.product t).Printed := by
  refine printed_of_product rfl rfl ?_
  have upper : ∀ s, t.Computable s → ∀ f ∈ t.realFactors, f.Computable s :=
    fun s computable => (Term.computable_iff.1 computable).2.1
  have lower : ∀ s, t.Computable s → ∀ g ∈ t.realDivisors, g.Computable s :=
    fun s computable => (Term.computable_iff.1 computable).2.2.1
  have nonzero : ∀ s, t.Computable s →
      t.denominator * (t.realDivisors.map (Factor.result s)).prod ≠ 0 := by
    intro s computable
    obtain ⟨d, -, -, each⟩ := Term.computable_iff.1 computable
    refine mul_ne_zero d (List.prod_ne_zero fun zero => ?_)
    obtain ⟨g, hg, vanishes⟩ := List.mem_map.1 zero
    exact each g hg vanishes
  have product : Signs .product
      (productText t.numerator t.realFactors (factorTexts t.numerator t.realFactors))
      (Term.Computable · t) fun s => t.numerator * (t.realFactors.map (Factor.result s)).prod := by
    cases real : t.realFactors with
    | nil =>
      have number : Signs .product (Scalar.text t.numerator) (Term.Computable · t)
          fun _ => t.numerator := (Signs.number numerator).lift fun h => h.ofUnary.ofPower
      exact number.mono fun s computable => ⟨computable, (mul_one _).symm⟩
    | cons f fs =>
      rw [real] at above upper
      obtain ⟨power, base⟩ := above f List.mem_cons_self
      have first : ∀ s, t.Computable s → f.Computable s :=
        fun s computable => upper s computable f List.mem_cons_self
      refine signs_productText numerator ?_ (fun other => if_neg (by simp [other]))
        (fun g hg => (above g hg).1) upper
      split
      · rename_i plain
        simp only [Bool.and_eq_true] at plain
        obtain ⟨⟨-, operator⟩, unit⟩ := plain
        have short : f.base.isLongSum = false := by
          cases written : f.base with
          | sum ts =>
            rw [written] at operator
            cases operator
          | _ => rfl
        refine (base.product short).mono fun s computable => ?_
        refine ⟨(Factor.computable_iff.1 (first s computable)).1, ?_⟩
        exact (Term.result_of_isUnit unit).symm
      · exact .inl ((power.power rfl).mono fun s computable => ⟨first s computable, rfl⟩).ofPower
  have text := toText_product t
  rw [Term.toText] at text
  rw [text]
  exact (signs_fractionText denominator product below lower nonzero).mono fun s computable =>
    ⟨computable, (Term.result_eq t).symm⟩

/-! ### Sums -/

/-- How a term is written behind others. -/
def addendText (t : Term α (Node α)) : String :=
  if (Node.product t).isNegative then " - " ++ t.negate.toText else " + " ++ t.toText

omit [LawfulScalar α] in
theorem toText_sum (t : Term α (Node α)) (ts : List (Term α (Node α))) :
    (Node.sum (t :: ts)).toText = t.toText ++ String.join (ts.map addendText) := by
  have rest := List.attach_map_val (l := ts) (f := addendText)
  rw [toText, ← rest]
  rfl

/-- A term behind others is added to them. -/
theorem says_addend {t : Term α (Node α)} (h : (Node.product t).Printed)
    (opposite : (Node.product t).isNegative = true → (Node.product t.negate).Printed)
    {text : String} {D : Scope α → Prop} {v : Scope α → α} (front : Says false .sum text D v)
    (computable : ∀ s, D s → t.Computable s) :
    Says false .sum (text ++ addendText t) D fun s => v s + t.result s := by
  unfold addendText
  split
  · rename_i negative
    have value : ∀ s, D s → t.negate.Computable s ∧ t.negate.result s = -t.result s :=
      fun s defined => Term.result_negate (computable s defined)
    rcases ((opposite negative).product rfl).mono value with bare | ⟨b, shape, -, bare⟩
    · refine (front.minus bare).mono fun s defined => ⟨defined, ?_⟩
      exact sub_neg_eq_add _ _
    · have text' : t.negate.toText = "-" ++ b := shape
      rw [text']
      refine (front.minusMinus bare).mono fun s defined => ⟨defined, ?_⟩
      exact congrArg _ (neg_neg _)
  · have addend : Says false .product t.toText D fun s => t.result s :=
      (h.product rfl).toSays.mono fun s defined => ⟨computable s defined, rfl⟩
    exact front.plus addend

/-- Terms behind a text that means a sum. -/
theorem says_addends {ts : List (Term α (Node α))} (each : ∀ t ∈ ts, (Node.product t).Printed)
    (opposite : ∀ t ∈ ts, (Node.product t).isNegative = true → (Node.product t.negate).Printed)
    {text : String} {D : Scope α → Prop} {v : Scope α → α} (front : Says false .sum text D v)
    (computable : ∀ s, D s → ∀ t ∈ ts, t.Computable s) :
    Says false .sum (text ++ String.join (ts.map addendText)) D
      fun s => v s + (ts.map (Term.result s)).sum := by
  induction ts generalizing text v with
  | nil => simpa using front
  | cons t ts ih =>
    obtain ⟨first, rest⟩ := List.forall_mem_cons.1 each
    obtain ⟨turned, others⟩ := List.forall_mem_cons.1 opposite
    have longer := says_addend first turned front fun s defined =>
      computable s defined t List.mem_cons_self
    rw [List.map_cons, String.join_cons, ← String.append_assoc]
    refine (ih rest others longer fun s defined u hu =>
      computable s defined u (List.mem_cons_of_mem t hu)).mono fun s defined => ⟨defined, ?_⟩
    rw [List.map_cons, List.sum_cons, add_assoc]

/-- A sum is written as its terms, with a sign between them. -/
theorem printed_sum {t : Term α (Node α)} {ts : List (Term α (Node α))}
    (first : (Node.product t).Printed) (rest : ∀ u ∈ ts, (Node.product u).Printed)
    (opposite : ∀ u ∈ ts, (Node.product u).isNegative = true → (Node.product u.negate).Printed) :
    (Node.sum (t :: ts)).Printed := by
  have computable : ∀ s, (Node.sum (t :: ts)).Computable s → ∀ u ∈ t :: ts, u.Computable s :=
    fun s => computable_sum.1
  have value : ∀ s, (Node.sum (t :: ts)).result s = t.result s + (ts.map (Term.result s)).sum :=
    fun s => by rw [result_sum, List.map_cons, List.sum_cons]
  have front : Signs .product t.toText (Node.Computable · (.sum (t :: ts))) fun s => t.result s :=
    (first.product rfl).mono fun s defined => ⟨computable s defined t List.mem_cons_self, rfl⟩
  have whole : (Node.sum (t :: ts)).Reads false .sum (Node.sum (t :: ts)).toText := by
    rw [toText_sum]
    refine (says_addends rest opposite front.toSays.ofProduct fun s defined u hu =>
      computable s defined u (List.mem_cons_of_mem t hu)).mono fun s defined => ?_
    exact ⟨defined, (value s).symm⟩
  refine ⟨nofun, nofun, nofun, nofun, fun short => ?_, whole⟩
  obtain rfl : ts = [] := by
    cases ts with
    | nil => rfl
    | cons u us => cases short
  rw [toText_sum, List.map_nil, String.join_nil, String.append_empty]
  refine front.mono fun s defined => ⟨defined, ?_⟩
  rw [value, List.map_nil, List.sum_nil, add_zero]

/-! ### Every expression -/

omit [FieldScalar α] [LawfulScalar α] in
theorem Every.unwrapped [Scalar α] {N : α → Prop} {V : Variable → Prop}
    {S : List (Term α (Node α)) → Prop} {n : Node α} (h : n.Every N V S) :
    n.unwrapped.Every N V S := by
  fun_induction Node.unwrapped n with
  | case1 base x one ih => exact ih (Factor.every_iff.1 h).1
  | case2 => exact h
  | case3 => exact h

/-- The text of a legible expression says what the expression comes to. -/
theorem printed [ReadableScalar α] {V : Variable → Prop} {S : List (Term α (Node α)) → Prop}
    (named : ∀ v, V v → v.letter.isAlpha = true) (present : ∀ ts, S ts → ts ≠ [])
    {n : Node α} (h : n.Every Scalar.Finite V S) : n.Printed := by
  induction size : n.size using Nat.strongRecOn generalizing n with
  | _ size ih =>
    have smaller : ∀ m : Node α, m.size < n.size → m.Every Scalar.Finite V S →
        m.Printed ∧ m.unwrapped.Printed := by
      intro m less legible
      have less' := size_unwrapped_le m
      exact ⟨ih _ (size ▸ less) legible rfl, ih _ (by omega) legible.unwrapped rfl⟩
    cases h with
    | number x finite => exact printed_number finite
    | constant c negative => exact printed_constant c negative
    | var v negative holds => exact printed_var (named v holds) negative
    | power f base exponent =>
      have whole : (Node.power f).size = 1 + f.base.size + f.exponent.size := by
        rw [Node.size]
      exact printed_power (smaller f.base (by omega) base).2 (smaller f.exponent (by omega) exponent).2
    | product t numerator denominator factors divisors =>
      refine printed_product numerator denominator (fun f hf => ?_) fun g hg =>
        (smaller _ (size_lt_of_mem_divisors hg) (divisors g hg)).1
      have less := size_lt_of_mem_factors hf
      have whole : (Node.power f).size = 1 + f.base.size + f.exponent.size := by
        rw [Node.size]
      exact ⟨(smaller _ less (factors f hf)).1,
        (smaller f.base (by omega) (Factor.every_iff.1 (factors f hf)).1).1⟩
    | sum ts holds terms =>
      cases ts with
      | nil => exact absurd rfl (present [] holds)
      | cons t ts =>
        obtain ⟨first, rest⟩ := List.forall_mem_cons.1 terms
        refine printed_sum (smaller _ (size_lt_of_mem_terms List.mem_cons_self) first).1
          (fun u hu => (smaller _ (size_lt_of_mem_terms (List.mem_cons_of_mem t hu))
            (rest u hu)).1) fun u hu negative => ?_
        have less := size_lt_of_mem_terms (List.mem_cons_of_mem t hu)
        have less' := Term.size_negate_le u
        exact (smaller _ (by omega) (Term.every_negate (rest u hu))).1
    | unary f x argument =>
      have whole : (Node.unary f x).size = 1 + x.size := by rw [Node.size]
      obtain ⟨hx, bare⟩ := smaller x (by omega) argument
      exact printed_unary hx bare
    | binary f x y left right =>
      have whole : (Node.binary f x y).size = 1 + x.size + y.size := by rw [Node.size]
      obtain ⟨hx, bare⟩ := smaller x (by omega) left
      obtain ⟨hy, bare'⟩ := smaller y (by omega) right
      exact printed_binary hx hy bare bare'

end Node

end SymbolicAlgebra
