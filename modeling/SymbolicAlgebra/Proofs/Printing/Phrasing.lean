/-
  Texts with a meaning
  ====================
  `Says bare level text D v` says that the text spells a phrase of the level whose
  number is `v s` in every scope `s` of `D`. There is one lemma for each operation a
  printed text can be made of: the texts are put together and so are the numbers.

  A text that is signed starts with a minus sign, and without it means the opposite
  (`Signs`). This is what lets two minus signs in a row be read as a plus sign.
-/
import SymbolicAlgebra.Proofs.Printing.Legible
import SymbolicAlgebra.Proofs.Printing.Number
import SymbolicAlgebra.Proofs.Printing.Spelling
import SymbolicAlgebra.Node.Printer

namespace SymbolicAlgebra

open SymbolicAlgebra.Text Postfix

variable {α : Type} [FieldScalar α]

namespace Phrase

variable {table : BracketTable}

/-- The sum less a product, which is taken from the last difference. -/
def less : Phrase table .sum → Phrase table .product → Phrase table .sum
  | ofDifference x, y => .ofDifference (.minus x y)
  | plus x z, y => .plus x (.minus z y)

theorem symbols_less (x : Phrase table .sum) (y : Phrase table .product) :
    (x.less y).symbols = x.symbols ++ Sign.minus.symbol :: y.symbols := by
  cases x with
  | ofDifference x => rfl
  | plus x z => simp [less, symbols]

theorem number?_less (s : Scope α) (x : Phrase table .sum) (y : Phrase table .product) :
    (x.less y).number? s =
      (x.number? s).bind fun m => (y.number? s).bind fun n => binaryValue? Sign.minus.symbol m n := by
  cases x with
  | ofDifference x => rfl
  | plus x z =>
    have order : (x.plus (z.minus y)).number? s = (x.number? s).bind fun k =>
        (z.number? s).bind fun m => (y.number? s).bind fun n => some (k + (m - n)) := by
      rw [number?, number?]
      cases x.number? s with
      | none => rfl
      | some k => cases z.number? s <;> cases y.number? s <;> rfl
    have value : (x.plus z).number? s =
        (x.number? s).bind fun k => (z.number? s).bind fun m => some (k + m) := rfl
    rw [less, order, value]
    cases x.number? s with
    | none => rfl
    | some k =>
      cases z.number? s with
      | none => rfl
      | some m =>
        cases y.number? s with
        | none => rfl
        | some n => exact congrArg some (add_sub_assoc k m n).symm

end Phrase

/-- The text spells a phrase that has the number where it is defined. -/
def Says (bare : Bool) (level : Level) (text : String) (D : Scope α → Prop) (v : Scope α → α) :
    Prop :=
  ∃ p : Phrase .round level, p.Spelled bare text ∧ ∀ s, D s → p.number? s = some (v s)

namespace Says

variable {bare bare' : Bool} {level : Level} {a b text : String} {D D' : Scope α → Prop}
  {v w v' : Scope α → α}

theorem weaken (h : Says true level text D v) : Says bare level text D v := by
  obtain ⟨p, spelled, value⟩ := h
  exact ⟨p, spelled.weaken, value⟩

theorem mono (h : Says bare level text D v) (same : ∀ s, D' s → D s ∧ v s = v' s) :
    Says bare level text D' v' := by
  obtain ⟨p, spelled, value⟩ := h
  refine ⟨p, spelled, fun s defined => ?_⟩
  obtain ⟨inner, equal⟩ := same s defined
  rw [value s inner, equal]

/-! ### Looser levels -/

theorem ofPrimary (h : Says bare .primary text D v) : Says bare .unary text D v := by
  obtain ⟨p, spelled, value⟩ := h
  exact ⟨.ofPrimary p, spelled.congr rfl, value⟩

theorem ofUnary (h : Says bare .unary text D v) : Says bare .power text D v := by
  obtain ⟨p, spelled, value⟩ := h
  exact ⟨.ofUnary p, spelled.congr rfl, value⟩

theorem ofPower (h : Says bare .power text D v) : Says bare .product text D v := by
  obtain ⟨p, spelled, value⟩ := h
  exact ⟨.ofPower p, spelled.congr rfl, value⟩

theorem ofProduct (h : Says bare .product text D v) : Says bare .sum text D v := by
  obtain ⟨p, spelled, value⟩ := h
  exact ⟨.ofDifference (.ofProduct p), spelled.congr rfl, value⟩

/-! ### Brackets and calls -/

theorem bracketed (h : Says false .sum text D v) :
    Says bare .primary ("(" ++ text ++ ")") D v := by
  obtain ⟨p, spelled, value⟩ := h
  exact ⟨.bracketed Phrase.roundPair p, spelled.bracketed, value⟩

theorem factorial (h : Says bare .primary text D v) :
    Says bare .primary (text ++ "!") D fun s => Scalar.unary .factorial (v s) := by
  obtain ⟨p, spelled, value⟩ := h
  refine ⟨.factorial p, spelled.factorial, fun s defined => ?_⟩
  rw [Phrase.number?, value s defined]
  rfl

theorem unaryCall {f : Unary} {name : String} (named : Function.ofName? name = some (.unary f))
    (h : Says false .sum text D v) :
    Says bare .primary (name ++ "(" ++ text ++ ")") D fun s => Scalar.unary f (v s) := by
  obtain ⟨p, spelled, value⟩ := h
  refine ⟨.unaryCall ⟨name⟩ f named Phrase.roundPair p, spelled.unaryCall named, ?_⟩
  intro s defined
  show (p.number? s).map _ = _
  rw [value s defined]
  rfl

theorem binaryCall {f : Binary} {name : String} (named : Function.ofName? name = some (.binary f))
    (ha : Says false .sum a D v) (hb : Says false .sum b D w) :
    Says bare .primary (name ++ "(" ++ a ++ ", " ++ b ++ ")") D
      fun s => Scalar.binary f (v s) (w s) := by
  obtain ⟨p, spelled, value⟩ := ha
  obtain ⟨q, spelled', value'⟩ := hb
  refine ⟨.binaryCall ⟨name⟩ f named Phrase.roundPair p q, spelled.binaryCall named spelled', ?_⟩
  intro s defined
  show (do return Scalar.binary f (← p.number? s) (← q.number? s)) = _
  rw [value s defined, value' s defined]
  rfl

/-! ### Signs between two texts -/

/-- Two texts with a sign between them, however the sign is written. -/
theorem joined {left right : Level} {c : Char} {tail : String} {r : Scope α → α}
    (ha : Says bare left a D v) (hb : Says bare' right b D w) (g : Sign)
    (build : Phrase .round left → Phrase .round right → Phrase .round level)
    (binary : c ∈ Symbol.binarySigns) (single : g.symbol.text.toList = [c])
    (squeezes : ∀ {u}, Token.Squeezes b u → (bare' = true → Token.Unsigned b) →
      Token.Squeezes tail (c :: u))
    (symbols : ∀ x y, (build x y).symbols = x.symbols ++ g.symbol :: y.symbols)
    (number : ∀ (s : Scope α) x y, (build x y).number? s =
      (x.number? s).bind fun m => (y.number? s).bind fun n => binaryValue? g.symbol m n)
    (result : ∀ s, D s → binaryValue? g.symbol (v s) (w s) = some (r s)) :
    Says bare level (a ++ tail) D r := by
  obtain ⟨p, spelled, value⟩ := ha
  obtain ⟨q, spelled', value'⟩ := hb
  refine ⟨build p q, spelled.sign spelled' g binary single squeezes (symbols p q),
    fun s defined => ?_⟩
  rw [number, value s defined, value' s defined]
  exact result s defined

theorem raised (ha : Says bare .unary a D v) (hb : Says bare' .power b D w) :
    Says bare .power (a ++ ("^" ++ b)) D fun s => Scalar.power (v s) (w s) :=
  joined ha hb .power .raised (by decide) rfl
    (fun h _ => h.after "^" fun _ => rfl)
    (fun _ _ => rfl) (fun _ _ _ => rfl) fun _ _ => rfl

theorem times (ha : Says bare .product a D v) (hb : Says bare' .power b D w) :
    Says bare .product (a ++ ("*" ++ b)) D fun s => v s * w s :=
  joined ha hb (.product .times) (.scaled · .times ·) (by decide) rfl
    (fun h _ => h.after "*" fun _ => rfl)
    (fun _ _ => rfl) (fun _ _ _ => rfl) fun _ _ => rfl

theorem remainder (ha : Says bare .product a D v) (hb : Says bare' .power b D w) :
    Says bare .product (a ++ (" % " ++ b)) D fun s => Scalar.binary .remainder (v s) (w s) :=
  joined ha hb (.product .remainder) (.scaled · .remainder ·) (by decide) rfl
    (fun h _ => h.after " % " fun _ => rfl)
    (fun _ _ => rfl) (fun _ _ _ => rfl) fun _ _ => rfl

theorem divided (ha : Says bare .product a D v) (hb : Says bare' .power b D w)
    (nonzero : ∀ s, D s → w s ≠ 0) :
    Says bare .product (a ++ ("/" ++ b)) D fun s => v s / w s :=
  joined ha hb (.product .divided) (.scaled · .divided ·) (by decide) rfl
    (fun h _ => h.after "/" fun _ => rfl)
    (fun _ _ => rfl) (fun _ _ _ => rfl) fun s defined => if_neg (by simpa using nonzero s defined)

/-- A product added to a sum or taken from it goes to the last difference of the sum. -/
theorem plus (ha : Says bare .sum a D v) (hb : Says bare' .product b D w) :
    Says bare .sum (a ++ (" + " ++ b)) D fun s => v s + w s :=
  joined ha hb .plus (fun x y => .plus x (.ofProduct y)) (by decide) rfl
    (fun h _ => h.after " + " fun _ => rfl)
    (fun _ _ => rfl) (fun _ _ _ => rfl) fun _ _ => rfl

/-- Two minus signs are a plus sign. -/
theorem minusMinus (ha : Says bare .sum a D v) (hb : Says true .product b D w) :
    Says bare .sum (a ++ (" - " ++ ("-" ++ b))) D fun s => v s + w s := by
  have tail : " - " ++ ("-" ++ b) = " - " ++ "-" ++ b := String.append_assoc.symm
  rw [tail]
  exact joined ha hb .plus (fun x y => .plus x (.ofProduct y)) (by decide) rfl
    (fun h _ => Token.squeezes_minus_minus.append h)
    (fun _ _ => rfl) (fun _ _ _ => rfl) fun _ _ => rfl

theorem minus (ha : Says bare .sum a D v) (hb : Says true .product b D w) :
    Says bare .sum (a ++ (" - " ++ b)) D fun s => v s - w s := by
  refine joined ha hb .minus Phrase.less (by decide) rfl
    (fun h unsigned => h.minus (by decide) (unsigned rfl)) Phrase.symbols_less ?_ fun _ _ => rfl
  exact fun s x y => Phrase.number?_less s x y

/-! ### Signs in front of a text -/

theorem negated (h : Says true .primary text D v) :
    Says false .unary ("-" ++ text) D fun s => -v s := by
  obtain ⟨p, spelled, value⟩ := h
  refine ⟨.negated (.ofPrimary p), spelled.minus rfl, fun s defined => ?_⟩
  rw [Phrase.number?, Phrase.number?, value s defined]
  rfl

section Numeral

variable [ReadableScalar α] {x : α} (finite : Scalar.Finite x) (positive : Scalar.lt x 0 = false)

include finite positive

/-- The text of a number that is not below zero is an operand with that number. -/
theorem operand_numeral : ∃ known : (⟨Scalar.text x⟩ : Symbol).isOperand = true,
    (∀ c ∈ (Scalar.text x).toList, isDecimal c = true ∨ c = '.') ∧
      ∀ s : Scope α, (Phrase.operand ⟨Scalar.text x⟩ known : Phrase .round .primary).number? s =
        some x := by
  obtain ⟨single, d, read, value⟩ := ReadableScalar.text_numeral finite positive
  have known : (⟨Scalar.text x⟩ : Symbol).isOperand = true := by
    simp [Symbol.isOperand, Symbol.isNumber, read]
  refine ⟨known, Phrase.chars_of_numeral? read single, fun s => ?_⟩
  rw [Phrase.number?, operandValue?, read]
  exact congrArg some value

theorem numeral : Says bare .primary (Scalar.text x) D fun _ => x := by
  obtain ⟨known, chars, value⟩ := operand_numeral finite positive
  exact ⟨_, Phrase.spelled_numeral known chars, fun s _ => value s⟩

/-- A number right in front of a text that starts no numeral, without a sign and with one. -/
theorem juxtaposed (h : Says true .power text D v) (apart : Node.startsNumber text = false) :
    Says true .product (Scalar.text x ++ text) D (fun s => x * v s) ∧
      Says false .product ("-" ++ (Scalar.text x ++ text)) D fun s => -x * v s := by
  obtain ⟨known, chars, numeral⟩ := operand_numeral finite positive
  obtain ⟨p, spelled, value⟩ := h
  have next : ∀ c ∈ text.toList.head?, Token.isNumeralChar c = false := by
    intro c hc
    unfold Node.startsNumber at apart
    split at apart
    · rename_i d rest shape
      rw [shape] at hc
      cases hc
      exact apart
    · rename_i empty
      rw [empty] at hc
      cases hc
  have whole : Phrase.Spelled true
      (.scaled (.ofPower (.ofUnary (.ofPrimary (.operand ⟨Scalar.text x⟩ known)))) .juxtaposed p)
      (Scalar.text x ++ text) := Phrase.Spelled.juxtaposed known chars spelled next
  constructor
  · refine ⟨_, whole, fun s defined => ?_⟩
    show ((Phrase.operand ⟨Scalar.text x⟩ known).number? s).bind _ = _
    rw [numeral, value s defined]
    rfl
  · refine ⟨.scaled (.ofPower (.ofUnary (.negated (.ofPrimary (.operand ⟨Scalar.text x⟩ known)))))
      .juxtaposed p, whole.minus ?_, fun s defined => ?_⟩
    · simp [Phrase.pieces, Phrase.symbols, Symbol.negation, Symbol.negationMark]
    · show (((Phrase.operand ⟨Scalar.text x⟩ known).number? s).map (- ·)).bind _ = _
      rw [numeral, value s defined]
      rfl

end Numeral

end Says

/-! ### Texts that may start with a sign -/

/-- The text starts with no minus sign, or it means the opposite without it. -/
def Signs (level : Level) (text : String) (D : Scope α → Prop) (v : Scope α → α) : Prop :=
  Says true level text D v ∨
    ∃ b, text = "-" ++ b ∧ Says false level text D v ∧ Says true level b D fun s => -v s

namespace Signs

variable {level level' : Level} {text : String} {D D' : Scope α → Prop} {v v' : Scope α → α}

theorem toSays (h : Signs level text D v) : Says false level text D v := by
  rcases h with bare | ⟨b, -, whole, -⟩
  · exact bare.weaken
  · exact whole

theorem mono (h : Signs level text D v) (same : ∀ s, D' s → D s ∧ v s = v' s) :
    Signs level text D' v' := by
  rcases h with bare | ⟨b, shape, whole, rest⟩
  · exact .inl (bare.mono same)
  · refine .inr ⟨b, shape, whole.mono same, rest.mono fun s defined => ?_⟩
    exact ⟨(same s defined).1, congrArg _ (same s defined).2⟩

/-- What can be done with a text whether it is bare or not can be done with a signed one, if it
turns opposite numbers into opposite ones. -/
theorem extend {tail : String} {r : Scope α → α → α} (h : Signs level text D v)
    (step : ∀ {bare a w}, Says bare level a D w →
      Says bare level' (a ++ tail) D fun s => r s (w s))
    (odd : ∀ s x, r s (-x) = -r s x) : Signs level' (text ++ tail) D fun s => r s (v s) := by
  rcases h with bare | ⟨b, shape, whole, rest⟩
  · exact .inl (step bare)
  · refine .inr ⟨b ++ tail, ?_, step whole, ?_⟩
    · rw [shape, String.append_assoc]
    · exact (step rest).mono fun s defined => ⟨defined, odd s (v s)⟩

theorem lift (h : Signs level text D v)
    (step : ∀ {bare a w}, Says bare level a D w → Says bare level' a D w) :
    Signs level' text D v := by
  rcases h with bare | ⟨b, shape, whole, rest⟩
  · exact .inl (step bare)
  · exact .inr ⟨b, shape, step whole, step rest⟩

/-- A sign in front of a text that is read as a whole. -/
theorem ofPrimary (h : Says true .primary text D v) (negative : Bool) :
    Signs .unary (Node.signedText negative text) D fun s => signed negative (v s) := by
  cases negative with
  | false => exact .inl h.ofPrimary
  | true =>
    refine .inr ⟨text, rfl, h.negated, h.ofPrimary.mono fun s defined => ⟨defined, ?_⟩⟩
    exact (neg_neg (v s)).symm

/-- The text of a number. -/
theorem number [ReadableScalar α] {x : α} (finite : Scalar.Finite x) :
    Signs .unary (Scalar.text x) D fun _ => x := by
  cases negative : Scalar.lt x 0 with
  | false => exact .inl (Says.numeral finite negative).ofPrimary
  | true =>
    have opposite : Says true .primary (Scalar.text (-x)) D fun _ => -x :=
      Says.numeral (ReadableScalar.finite_neg finite) (ReadableScalar.neg_lt_zero negative)
    rw [ReadableScalar.text_negative finite negative]
    refine (ofPrimary opposite true).mono fun s defined => ⟨defined, ?_⟩
    exact neg_neg x

end Signs

end SymbolicAlgebra
