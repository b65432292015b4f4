/-
  Texts that build an expression
  ==============================
  `Builds bare level text n` says that the text spells a phrase of the level whose node
  is `n`. As for texts with a meaning there is one lemma for each way in which a text is
  put together, but here the parts are combined by the operations on nodes, and the node
  that comes out is the very one that reading makes of the text:
  **`Builds.parse_eq`**.
-/
import SymbolicAlgebra.Proofs.Printing.Rereading

namespace SymbolicAlgebra

open SymbolicAlgebra.Text Node

variable {α : Type} [FieldScalar α]

/-- The text spells a phrase of which the node is built. -/
def Builds (bare : Bool) (level : Level) (text : String) (n : Node α) : Prop :=
  ∃ p : Phrase .round level, p.Spelled bare text ∧ p.node α = .ok n

namespace Builds

variable {bare bare' : Bool} {level : Level} {a b text : String} {m n : Node α}

theorem weaken (h : Builds true level text n) : Builds bare level text n := by
  obtain ⟨p, spelled, node⟩ := h
  exact ⟨p, spelled.weaken, node⟩

theorem unsigned (h : Builds true level text n) : Token.Unsigned text := by
  obtain ⟨p, ⟨w, squeezes, unsigned, scans⟩, node⟩ := h
  exact unsigned rfl

/-! ### Looser levels -/

theorem ofPrimary (h : Builds bare .primary text n) : Builds bare .unary text n := by
  obtain ⟨p, spelled, node⟩ := h
  exact ⟨.ofPrimary p, spelled.congr rfl, node⟩

theorem ofUnary (h : Builds bare .unary text n) : Builds bare .power text n := by
  obtain ⟨p, spelled, node⟩ := h
  exact ⟨.ofUnary p, spelled.congr rfl, node⟩

theorem ofPower (h : Builds bare .power text n) : Builds bare .product text n := by
  obtain ⟨p, spelled, node⟩ := h
  exact ⟨.ofPower p, spelled.congr rfl, node⟩

theorem ofProduct (h : Builds bare .product text n) : Builds bare .sum text n := by
  obtain ⟨p, spelled, node⟩ := h
  exact ⟨.ofDifference (.ofProduct p), spelled.congr rfl, node⟩

/-! ### Brackets and calls -/

theorem bracketed (h : Builds false .sum text n) :
    Builds bare .primary ("(" ++ text ++ ")") n := by
  obtain ⟨p, spelled, node⟩ := h
  exact ⟨.bracketed Phrase.roundPair p, spelled.bracketed, node⟩

theorem factorial (h : Builds bare .primary text n) :
    Builds bare .primary (text ++ "!") (.unary .factorial n) := by
  obtain ⟨p, spelled, node⟩ := h
  refine ⟨.factorial p, spelled.factorial, ?_⟩
  rw [Phrase.node, node]
  rfl

theorem unaryCall {f : Unary} {name : String} (named : Function.ofName? name = some (.unary f))
    (h : Builds false .sum text n) :
    Builds bare .primary (name ++ "(" ++ text ++ ")") (.unary f n) := by
  obtain ⟨p, spelled, node⟩ := h
  refine ⟨.unaryCall ⟨name⟩ f named Phrase.roundPair p, spelled.unaryCall named, ?_⟩
  show (do return Node.unary f (← p.node α)) = _
  rw [node]
  rfl

theorem binaryCall {f : Binary} {name : String} (named : Function.ofName? name = some (.binary f))
    (ha : Builds false .sum a m) (hb : Builds false .sum b n) :
    Builds bare .primary (name ++ "(" ++ a ++ ", " ++ b ++ ")") (.binary f m n) := by
  obtain ⟨p, spelled, node⟩ := ha
  obtain ⟨q, spelled', node'⟩ := hb
  refine ⟨.binaryCall ⟨name⟩ f named Phrase.roundPair p q, spelled.binaryCall named spelled', ?_⟩
  show (do return Node.binary f (← p.node α) (← q.node α)) = _
  rw [node, node']
  rfl

/-! ### Signs -/

/-- Two texts with the sign of an operation between them. -/
theorem joined {left right : Level} {r : Node α} (ha : Builds bare left a m)
    (hb : Builds bare' right b n) {c : Char} {sign : String} (g : Sign)
    (build : Phrase .round left → Phrase .round right → Phrase .round level)
    (binary : c ∈ Symbol.binarySigns) (single : g.symbol.text.toList = [c])
    (written : ∀ rest, Token.collapseMinus (compact sign.toList ++ rest) =
      c :: Token.collapseMinus rest)
    (symbols : ∀ x y, (build x y).symbols = x.symbols ++ g.symbol :: y.symbols)
    (node : ∀ x y, x.node α = .ok m → y.node α = .ok n → (build x y).node α = .ok r) :
    Builds bare level (a ++ (sign ++ b)) r := by
  obtain ⟨p, spelled, left⟩ := ha
  obtain ⟨q, spelled', right⟩ := hb
  refine ⟨build p q, spelled.sign spelled' g binary single ?_ (symbols p q), node p q left right⟩
  exact fun squeezes _ => squeezes.after sign written

theorem raised (ha : Builds bare .unary a m) (hb : Builds bare' .power b n) :
    Builds bare .power (a ++ ("^" ++ b)) (m.raise n) := by
  apply joined ha hb .power .raised (by decide) rfl (fun _ => rfl) (fun _ _ => rfl)
  intro x y left right
  rw [Phrase.node, left, right]
  rfl

theorem times {r : Node α} (ha : Builds bare .product a m) (hb : Builds bare' .power b n)
    (product : m.multiply n = .ok r) : Builds bare .product (a ++ ("*" ++ b)) r := by
  apply joined ha hb (.product .times) (.scaled · .times ·) (by decide) rfl (fun _ => rfl)
    (fun _ _ => rfl)
  intro x y left right
  rw [Phrase.node, left, right]
  exact product

theorem divided {r : Node α} (ha : Builds bare .product a m) (hb : Builds bare' .power b n)
    (quotient : m.divide n = .ok r) : Builds bare .product (a ++ ("/" ++ b)) r := by
  apply joined ha hb (.product .divided) (.scaled · .divided ·) (by decide) rfl (fun _ => rfl)
    (fun _ _ => rfl)
  intro x y left right
  rw [Phrase.node, left, right]
  exact quotient

theorem remainder (ha : Builds bare .product a m) (hb : Builds bare' .power b n) :
    Builds bare .product (a ++ (" % " ++ b)) (.binary .remainder m n) := by
  apply joined ha hb (.product .remainder) (.scaled · .remainder ·) (by decide) rfl
    (fun _ => rfl) (fun _ _ => rfl)
  intro x y left right
  rw [Phrase.node, left, right]
  rfl

theorem negated (h : Builds true .primary text n) : Builds false .unary ("-" ++ text) n.negate := by
  obtain ⟨p, spelled, node⟩ := h
  refine ⟨.negated (.ofPrimary p), spelled.minus rfl, ?_⟩
  rw [Phrase.node, Phrase.node, node]
  rfl

/-! ### Numbers -/

section Numeral

variable [ReadableScalar α] {x : α}

/-- The text of a number that is not below zero is an operand with that number. -/
theorem operand_numeral (finite : Scalar.Finite x) (positive : Scalar.lt x 0 = false) :
    ∃ known : (⟨Scalar.text x⟩ : Symbol).isOperand = true,
      (∀ c ∈ (Scalar.text x).toList, isDecimal c = true ∨ c = '.') ∧
        (Phrase.operand ⟨Scalar.text x⟩ known : Phrase .round .primary).node α =
          .ok (.number x) := by
  obtain ⟨known, chars, -⟩ := Says.operand_numeral finite positive
  obtain ⟨single, d, read, value⟩ := ReadableScalar.text_numeral finite positive
  refine ⟨known, chars, ?_⟩
  rw [Phrase.node, Symbol.toOperand, read]
  dsimp only
  rw [value, FieldScalar.ofValue_eq]

theorem numeral (finite : Scalar.Finite x) (positive : Scalar.lt x 0 = false) :
    Builds bare .primary (Scalar.text x) (.number x) := by
  obtain ⟨known, chars, node⟩ := operand_numeral finite positive
  exact ⟨_, Phrase.spelled_numeral known chars, node⟩

/-- The text of any finite number, bare if it is not below zero. -/
theorem number (finite : Scalar.Finite x) :
    Builds (!Scalar.lt x 0) .unary (Scalar.text x) (.number x) := by
  cases negative : Scalar.lt x 0 with
  | false => exact (numeral finite negative).ofPrimary
  | true =>
    have opposite : Builds true .primary (Scalar.text (-x)) (.number (-x)) :=
      numeral (ReadableScalar.finite_neg finite) (ReadableScalar.neg_lt_zero negative)
    have signed := opposite.negated
    rw [Node.negate, FieldScalar.ofValue_eq, neg_neg] at signed
    rwa [ReadableScalar.text_negative finite negative]

/-- A number right in front of a text that starts no numeral is multiplied by it. A sign of the
number stands before the product. -/
theorem juxtaposed {r : Node α} (finite : Scalar.Finite x) (h : Builds true .power text n)
    (apart : Node.startsNumber text = false) (product : (Node.number x).multiply n = .ok r) :
    Builds (!Scalar.lt x 0) .product (Scalar.text x ++ text) r := by
  obtain ⟨p, spelled, node⟩ := h
  have next : ∀ c ∈ text.toList.head?, Token.isNumeralChar c = false := by
    intro c hc
    unfold Node.startsNumber at apart
    split at apart
    · rename_i d rest shape
      rw [shape] at hc
      cases hc
      exact apart
    · rename_i empty
      rw [empty] at hc
      cases hc
  cases negative : Scalar.lt x 0 with
  | false =>
    obtain ⟨known, chars, numeral⟩ := operand_numeral finite negative
    refine ⟨_, Phrase.Spelled.juxtaposed known chars spelled next, ?_⟩
    rw [Phrase.node, Phrase.node, Phrase.node, Phrase.node, numeral, node]
    exact product
  | true =>
    obtain ⟨known, chars, numeral⟩ := operand_numeral (ReadableScalar.finite_neg finite)
      (ReadableScalar.neg_lt_zero negative)
    have whole : Phrase.Spelled true
        (.scaled (.ofPower (.ofUnary (.ofPrimary (.operand ⟨Scalar.text (-x)⟩ known)))) .juxtaposed p)
        (Scalar.text (-x) ++ text) := Phrase.Spelled.juxtaposed known chars spelled next
    rw [ReadableScalar.text_negative finite negative, String.append_assoc]
    refine ⟨.scaled (.ofPower (.ofUnary (.negated (.ofPrimary
      (.operand ⟨Scalar.text (-x)⟩ known))))) .juxtaposed p, whole.minus ?_, ?_⟩
    · simp [Phrase.pieces, Phrase.symbols, Symbol.negation, Symbol.negationMark]
    · have sign : (Node.number (-x)).negate = .number x := by
        rw [Node.negate, FieldScalar.ofValue_eq, neg_neg]
      rw [Phrase.node, Phrase.node, Phrase.node, Phrase.node, Phrase.node, numeral, node]
      show (Node.number (-x)).negate.multiply n = _
      rw [sign]
      exact product

end Numeral

/-! ### Whole texts -/

/-- Reading a text gives the reduced node that it builds. -/
theorem parse_eq (h : Builds false .sum text n) :
    ({} : ParserSettings).parse text = .ok n.reduce := by
  obtain ⟨p, spelled, node⟩ := h
  rw [ParserSettings.parse_phrase (by decide) rfl spelled.symbols_eq, node]
  rfl

end Builds

/-! ### Texts that may start with a sign -/

/-- Whether a text starts with a minus sign. -/
def Node.startsMinus (text : String) : Bool := text.toList.head? == some '-'

theorem Node.startsMinus_append {a : String} (minus : startsMinus a = true) (b : String) :
    startsMinus (a ++ b) = true := by
  unfold startsMinus at minus ⊢
  rw [String.toList_append]
  cases shape : a.toList with
  | nil =>
    rw [shape] at minus
    cases minus
  | cons c cs =>
    rw [shape] at minus
    exact minus

/-- A text that builds a node. It can stand anywhere unless it starts with a minus sign. -/
def Leads (level : Level) (text : String) (n : Node α) : Prop :=
  Builds true level text n ∨ startsMinus text = true ∧ Builds false level text n

namespace Leads

variable {level level' : Level} {text tail : String} {n k : Node α}

theorem toBuilds (h : Leads level text n) : Builds false level text n := by
  rcases h with bare | ⟨-, whole⟩
  · exact bare.weaken
  · exact whole

theorem unsigned (h : Leads level text n) (plain : startsMinus text = false) :
    Builds true level text n := by
  rcases h with bare | ⟨minus, -⟩
  · exact bare
  · rw [plain] at minus
    cases minus

/-- What can be done with a text whether it is bare or not. -/
theorem extend (h : Leads level text n)
    (step : ∀ {bare}, Builds bare level text n → Builds bare level' (text ++ tail) k) :
    Leads level' (text ++ tail) k := by
  rcases h with bare | ⟨minus, whole⟩
  · exact .inl (step bare)
  · exact .inr ⟨startsMinus_append minus tail, step whole⟩

end Leads

end SymbolicAlgebra
