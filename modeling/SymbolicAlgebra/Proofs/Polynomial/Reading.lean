/-
  Texts of polynomials
  ====================
  A text of integers, variables, brackets and the signs of sums, differences and products,
  in which every exponent is an integer as it is written, is parsed to a polynomial
  (**`Phrase.polynomial_node`**). Its expanded form has no factor with a sum for a base, at
  any depth: **`ParserSettings.expand_polynomial`**.

  An exponent stands right before its sign in postfix order, so it is a literal when the
  symbol there is one (`Postfix.WholePowers`). In `x ^ 2 ^ 3` the exponent of `x` is a power
  and no literal.
-/
import Mathlib.Data.List.Chain
import SymbolicAlgebra.Proofs.Grammar.Refusal
import SymbolicAlgebra.Proofs.Polynomial.Expansion
import SymbolicAlgebra.Proofs.Printing.Spelling

namespace SymbolicAlgebra

open SymbolicAlgebra.Text SymbolicAlgebra.Postfix

/-! ### The symbols of a polynomial -/

namespace Symbol

/-- Whether the symbol is a numeral without digits behind a point. -/
def isInteger (s : Symbol) : Bool := s.numeral?.any (·.exponent == 0)

theorem isInteger_iff {s : Symbol} : s.isInteger = true ↔ ∃ n : ℕ, s.numeral? = some ⟨n, 0⟩ := by
  unfold isInteger
  rw [Option.any_eq_true]
  constructor
  · rintro ⟨⟨n, e⟩, read, same⟩
    obtain rfl : e = 0 := eq_of_beq same
    exact ⟨n, read⟩
  · rintro ⟨n, read⟩
    exact ⟨⟨n, 0⟩, read, rfl⟩

/-- Whether polynomials are written with the symbol: integers, variables, brackets, the mark of a
negation, and all signs but those of remainders and quotients. -/
def inPolynomial (table : BracketTable) (s : Symbol) : Bool :=
  match s.kind table with
  | .operand => s.isInteger || s.isVariable
  | .sign => s != (Sign.product .remainder).symbol && s != (Sign.product .divided).symbol
  | .negation | .opening | .closing => true
  | .function | .bang | .comma => false

/-- No variable is a numeral. -/
theorem numeral?_of_isVariable {s : Symbol} (named : s.isVariable = true) : s.numeral? = none := by
  have formed := (Bool.and_eq_true_iff.1 named).1
  obtain ⟨c, rest, shape, alpha⟩ : ∃ c rest, withoutLineEnd s.text.toList = c :: rest ∧
      c.isAlpha = true := by
    unfold isVariableName at formed
    split at formed
    · rename_i c shape
      exact ⟨c, [], shape, formed⟩
    · rename_i c digits shape
      exact ⟨c, '_' :: digits, shape, by simp only [Bool.and_eq_true] at formed; exact formed.1.1⟩
    · cases formed
  have plain := (Phrase.plain_of_isAlpha alpha).1
  have notDecimal : isDecimal c = false := by
    rw [← Bool.not_eq_true]
    intro decimal
    simp [Token.isNumeralChar, isDigit_of_isDecimal decimal] at plain
  have notPoint : c ≠ '.' := by
    rintro rfl
    exact absurd plain (by decide)
  rw [numeral?, shape]
  simp only [List.takeWhile_cons, List.dropWhile_cons, notDecimal]
  split
  · simp_all
  · simp_all
  · rfl

end Symbol

/-- Every exponent is an integer as it is written: the symbol right before the sign of a power. -/
def Postfix.WholePowers (symbols : List Symbol) : Prop :=
  symbols.IsChain fun s t => t = Sign.power.symbol → s.isInteger = true

instance (symbols : List Symbol) : Decidable (WholePowers symbols) :=
  inferInstanceAs (Decidable (symbols.IsChain _))

/-! ### Phrases -/

namespace Phrase

variable {α : Type} {table : BracketTable} {level : Level}

/-- A phrase that ends in an operand is this operand. -/
theorem postorder_cases [Scalar α] (p : Phrase table level) :
    (∃ s, s.isOperand = true ∧ p.postorder = [s] ∧ p.node α = s.toOperand) ∨
      ∃ front s, p.postorder = front ++ [s] ∧ s.isOperand = false := by
  induction p with
  | operand s known => exact .inl ⟨s, known, rfl, rfl⟩
  | factorial x ih => exact .inr ⟨_, _, rfl, Symbol.isOperand_bang⟩
  | bracketed b x ih => exact ih
  | unaryCall s f named b x ih => exact .inr ⟨_, _, rfl, Symbol.isOperand_of_function? named⟩
  | binaryCall s f named b x y ihx ihy =>
    exact .inr ⟨_, _, rfl, Symbol.isOperand_of_function? named⟩
  | ofPrimary x ih => exact ih
  | negated x ih => exact .inr ⟨_, _, rfl, Symbol.isOperand_negation⟩
  | ofUnary x ih => exact ih
  | raised x y ihx ihy => exact .inr ⟨_, _, rfl, Sign.isOperand_symbol _⟩
  | ofPower x ih => exact ih
  | scaled x g y ihx ihy => exact .inr ⟨_, _, rfl, Sign.isOperand_symbol _⟩
  | ofProduct x ih => exact ih
  | minus x y ihx ihy => exact .inr ⟨_, _, rfl, Sign.isOperand_symbol _⟩
  | ofDifference x ih => exact ih
  | plus x y ihx ihy => exact .inr ⟨_, _, rfl, Sign.isOperand_symbol _⟩

variable [FieldScalar α] [WholeScalar α]

theorem toOperand_integer {s : Symbol} (whole : s.isInteger = true) :
    ∃ n : ℕ, (s.toOperand : Checked (Node α)) = .ok (.number (n : α)) := by
  obtain ⟨n, read⟩ := Symbol.isInteger_iff.1 whole
  refine ⟨n, ?_⟩
  rw [Symbol.toOperand, read]
  dsimp only
  rw [FieldScalar.ofValue_eq, WholeScalar.ofDecimal_cast]

theorem polynomial_toOperand {s : Symbol} (known : s.isOperand = true)
    (word : s.inPolynomial table = true) :
    Yields (Node.Polynomial True True .alone) (s.toOperand : Checked (Node α)) := by
  unfold Symbol.inPolynomial at word
  rw [Symbol.kind_operand known] at word
  rcases Bool.or_eq_true_iff.1 word with whole | named
  · obtain ⟨n, read⟩ := toOperand_integer (α := α) whole
    rw [read, ← Int.cast_natCast]
    exact .ok (.number _ n)
  · have none := Symbol.numeral?_of_isVariable named
    have other : Constant.ofSymbol? s.text = .none := by
      have := (Bool.and_eq_true_iff.1 named).2
      simpa [Symbol.isConstant] using this
    rw [Symbol.toOperand, none, other]
    dsimp only
    rw [if_pos named]
    exact Yields.bind (Q := fun _ => True) (fun _ _ => trivial) fun v _ => .ok (.var _ v false)

/-- The literal exponents of two phrases and the sign behind them. -/
theorem wholePowers_append {xs ys : List Symbol} {s : Symbol} (whole : WholePowers (xs ++ ys ++ [s])) :
    WholePowers xs ∧ WholePowers ys := by
  obtain ⟨both, -⟩ := List.isChain_append.1 whole
  obtain ⟨left, right, -⟩ := List.isChain_append.1 both
  exact ⟨left, right⟩

/-- The literal before the sign of a power is the whole exponent. -/
theorem exponent_integer {x : List Symbol} {y : Phrase table level}
    (whole : WholePowers (x ++ y.postorder ++ [Sign.power.symbol])) :
    ∃ n : ℕ, y.node α = .ok (.number (n : α)) := by
  obtain ⟨-, -, last⟩ := List.isChain_append.1 whole
  rcases y.postorder_cases (α := α) with ⟨s, known, single, node⟩ | ⟨front, s, ends, other⟩
  · rw [single] at last
    obtain ⟨n, read⟩ := toOperand_integer (α := α) (last s (by simp) _ rfl rfl)
    exact ⟨n, node.trans read⟩
  · rw [ends] at last
    obtain ⟨n, read⟩ := Symbol.isInteger_iff.1 (last s (by simp [← List.append_assoc]) _ rfl rfl)
    simp [Symbol.isOperand, Symbol.isNumber, read] at other

/-- The node of a phrase of such symbols, if its exponents are literals, is a polynomial. -/
theorem polynomial_node (p : Phrase table level) (words : ∀ s ∈ p.symbols, s.inPolynomial table = true)
    (whole : WholePowers p.postorder) :
    Yields (Node.Polynomial True True .alone) (p.node α) := by
  induction p with
  | operand s known => exact polynomial_toOperand known (words s List.mem_cons_self)
  | factorial x ih =>
    have bang := words .bang (by simp [symbols])
    simp [Symbol.inPolynomial] at bang
  | bracketed b x ih =>
    exact ih (fun s hs => words s (by simp [symbols, hs])) whole
  | unaryCall s f named b x ih =>
    have call := words s (by simp [symbols])
    simp [Symbol.inPolynomial, Symbol.kind_function named] at call
  | binaryCall s f named b x y ihx ihy =>
    have call := words s (by simp [symbols])
    simp [Symbol.inPolynomial, Symbol.kind_function named] at call
  | ofPrimary x ih => exact ih words whole
  | negated x ih =>
    obtain ⟨inner, -⟩ := List.isChain_append.1 whole
    refine (ih (fun s hs => words s (by simp [symbols, hs])) inner).bind fun n hn => ?_
    exact .ok hn.negate
  | ofUnary x ih => exact ih words whole
  | raised x y ihx ihy =>
    obtain ⟨left, -⟩ := wholePowers_append whole
    obtain ⟨k, exponent⟩ := exponent_integer (α := α) whole
    refine (ihx (fun s hs => words s (by simp [symbols, hs])) left).bind fun n hn => ?_
    rw [exponent]
    exact .ok (hn.free.raise k)
  | ofPower x ih => exact ih words whole
  | scaled x g y ihx ihy =>
    obtain ⟨left, right⟩ := wholePowers_append whole
    have sign := words (Sign.product g).symbol (by simp [symbols])
    simp only [Symbol.inPolynomial, Symbol.kind_sign, Bool.and_eq_true, bne_iff_ne] at sign
    refine (ihx (fun s hs => words s (by simp [symbols, hs])) left).bind fun m hm => ?_
    refine (ihy (fun s hs => words s (by simp [symbols, hs])) right).bind fun n hn => ?_
    cases g with
    | times => exact hm.multiply hn
    | juxtaposed => exact hm.multiply hn
    | remainder => exact absurd rfl sign.1
    | divided => exact absurd rfl sign.2
  | ofProduct x ih => exact ih words whole
  | minus x y ihx ihy =>
    obtain ⟨left, right⟩ := wholePowers_append whole
    refine (ihx (fun s hs => words s (by simp [symbols, hs])) left).bind fun m hm => ?_
    refine (ihy (fun s hs => words s (by simp [symbols, hs])) right).bind fun n hn => ?_
    exact hm.subtract hn
  | ofDifference x ih => exact ih words whole
  | plus x y ihx ihy =>
    obtain ⟨left, right⟩ := wholePowers_append whole
    refine (ihx (fun s hs => words s (by simp [symbols, hs])) left).bind fun m hm => ?_
    refine (ihy (fun s hs => words s (by simp [symbols, hs])) right).bind fun n hn => ?_
    exact hm.add hn

end Phrase

namespace ParserSettings

variable {α : Type} [FieldScalar α] [WholeScalar α]

/-- Such a text is parsed, and to a polynomial without powers of powers. -/
theorem parse_polynomial {settings : ParserSettings} (checked : settings.check = .ok settings)
    {text : String} {symbols postfixed : List Symbol} (lexed : settings.symbols text = .ok symbols)
    (converted : ofInfix settings.brackets settings.maxDepth symbols = .ok postfixed)
    (words : ∀ s ∈ symbols, s.inPolynomial settings.brackets = true) (whole : WholePowers postfixed) :
    ∃ n : Node α, settings.parse text = .ok n ∧ n.Polynomial False True .alone := by
  by_cases nonempty : symbols = []
  · subst nonempty
    cases converted
    refine ⟨.number 0, ?_, .zero⟩
    unfold parse
    rw [lexed]
    rfl
  · obtain ⟨p, spelled, rfl⟩ := (ofInfix_cases checked lexed nonempty).2 postfixed converted
    have single := lineFeed_not_mem lexed
    rw [← spelled] at words single
    obtain ⟨n, node⟩ := (p.scales_node (α := α) single).exists
    refine ⟨n.reduce, ?_, (p.polynomial_node words whole n node).reduce_flat⟩
    unfold parse
    rw [lexed]
    show (do
      let postfixed ← ofInfix settings.brackets settings.maxDepth symbols
      return (← toNode postfixed).reduce) = _
    rw [converted]
    show (do return (← toNode p.postorder).reduce) = _
    rw [p.toNode_postorder, node]
    rfl

/-- The node of a text of integers, variables, brackets, sums, differences, products and powers with
literal exponents is expanded, simplified and reduced to one in which no factor, at any depth, has
a sum for a base. -/
theorem expand_polynomial {settings : ParserSettings} (checked : settings.check = .ok settings)
    {text : String} {symbols postfixed : List Symbol} (lexed : settings.symbols text = .ok symbols)
    (converted : ofInfix settings.brackets settings.maxDepth symbols = .ok postfixed)
    (words : ∀ s ∈ symbols, s.inPolynomial settings.brackets = true) (whole : WholePowers postfixed) :
    ∃ n e m : Node α, settings.parse text = .ok n ∧ n.expand = .ok e ∧ e.simplify = .ok m ∧
      ∀ f : Factor (Node α), f.Within m.reduce → ∀ ts, f.base ≠ .sum ts := by
  obtain ⟨n, parsed, polynomial⟩ := parse_polynomial (α := α) checked lexed converted words whole
  obtain ⟨e, m, expanded, simplified, opened⟩ := polynomial.expand_within
  exact ⟨n, e, m, parsed, expanded, simplified, opened⟩

/-- The square of a sum times a variable and a number, multiplied out. -/
theorem expand_polynomial_square :
    let settings : ParserSettings := {}
    let symbols : List Symbol := ["2", "#", "y", "*", "(", "x", "-", "1", ")", "^", "2"].map Symbol.mk
    let postfixed : List Symbol := ["2", "y", "#", "x", "1", "-", "2", "^", "*"].map Symbol.mk
    settings.check = .ok settings ∧ settings.symbols "2y * (x - 1)^2" = .ok symbols ∧
      ofInfix settings.brackets settings.maxDepth symbols = .ok postfixed ∧
      (∀ s ∈ symbols, s.inPolynomial settings.brackets = true) ∧ WholePowers postfixed ∧
      ∃ n e m : Node ℚ, settings.parse "2y * (x - 1)^2" = .ok n ∧ n.expand = .ok e ∧
        e.simplify = .ok m ∧
        ∀ f : Factor (Node ℚ), f.Within m.reduce → ∀ ts, f.base ≠ .sum ts := by
  intro settings symbols postfixed
  have checked : settings.check = .ok settings := by decide
  have lexed : settings.symbols "2y * (x - 1)^2" = .ok symbols := by decide +kernel
  have converted : ofInfix settings.brackets settings.maxDepth symbols = .ok postfixed := by
    decide +kernel
  have words : ∀ s ∈ symbols, s.inPolynomial settings.brackets = true := by decide +kernel
  have whole : WholePowers postfixed := by decide +kernel
  exact ⟨checked, lexed, converted, words, whole,
    expand_polynomial checked lexed converted words whole⟩

end ParserSettings

end SymbolicAlgebra
