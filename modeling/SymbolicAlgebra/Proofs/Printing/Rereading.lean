/-
  Texts that are read again
  =========================
  The text of a parsed expression has symbols and a postfix order of its own, and the
  direct evaluation of these gives what the expression evaluates to:
  **`Node.direct_toText`**. All brackets that the printer leaves out are therefore
  those that the reader puts back.

  Two things can be lost. A variable whose subscript is zero is written by its letter
  alone and can be read as a constant (`Node.direct_toText_name`). A power whose
  exponent only computes to one is written behind a minus sign without a bracket. An
  expression is computable when neither happens and each of its parts has a value.
-/
import SymbolicAlgebra.Proofs.Printing.Fraction
import SymbolicAlgebra.Proofs.Grammar.Acceptance

namespace SymbolicAlgebra

open SymbolicAlgebra.Postfix

/-- No phrase is empty. -/
theorem Phrase.symbols_ne_nil {table : BracketTable} {level : Level} (p : Phrase table level) :
    p.symbols ≠ [] := by
  induction p with
  | operand s known => simp [symbols]
  | ofPrimary x ih => exact ih
  | ofUnary x ih => exact ih
  | ofPower x ih => exact ih
  | ofProduct x ih => exact ih
  | ofDifference x ih => exact ih
  | _ => simp [symbols]

/-- The symbols of a text that are those of a phrase are brought into its postorder. -/
theorem ParserSettings.ofInfix_postorder {settings : ParserSettings}
    (checked : settings.check = .ok settings) {text : String}
    {p : Phrase settings.brackets .sum} (lexed : settings.symbols text = .ok p.symbols) :
    ofInfix settings.brackets none p.symbols = .ok p.postorder := by
  have valid := BracketTable.valid_of_check checked
  obtain ⟨u, fits, ended⟩ := alternating_symbols checked lexed p.symbols_ne_nil
  have spec := Reading.ofInfix_spec valid fits ended
  rwa [Reading.phraseOf_symbols valid] at spec

/-- A text whose symbols are those of a phrase is read as the reduced node of the phrase. -/
theorem ParserSettings.parse_phrase {α : Type} [Scalar α] {settings : ParserSettings}
    (checked : settings.check = .ok settings) (unlimited : settings.maxDepth = none) {text : String}
    {p : Phrase settings.brackets .sum} (lexed : settings.symbols text = .ok p.symbols) :
    settings.parse text = (do return (← p.node α).reduce) := by
  unfold parse
  rw [lexed, unlimited]
  show (do
    let postfixed ← ofInfix settings.brackets none p.symbols
    return (← toNode postfixed).reduce) = _
  rw [ofInfix_postorder checked lexed]
  show (do return (← toNode p.postorder).reduce) = _
  rw [p.toNode_postorder]

namespace Node

/-- The text of a parsed expression with finite numbers is read, and the direct evaluation of what
is read gives the value of the expression wherever all of its parts have one. -/
theorem direct_toText {α : Type} [FieldScalar α] [LawfulScalar α] [ReadableScalar α]
    {settings : ParserSettings} {text : String} {n : Node α}
    (parsed : settings.parse text = .ok n)
    (finite : n.Every Scalar.Finite (fun _ => True) (fun _ => True)) :
    ∃ symbols postfixed, ({} : ParserSettings).symbols n.toText = .ok symbols ∧
      ofInfix .round none symbols = .ok postfixed ∧
      ∀ s : Scope α, n.Computable s →
        ∃ x, direct s postfixed = some x ∧ n.evaluate (some s) = .ok (.number x) := by
  have legible := finite.of_numbers (settings.every_parse text n parsed)
  obtain ⟨p, spelled, value⟩ := (printed (fun v letter => letter) (fun ts => id) legible).whole
  have lexed := spelled.symbols_eq
  have checked : ({} : ParserSettings).check = .ok {} := by decide
  refine ⟨p.symbols, p.postorder, lexed, ParserSettings.ofInfix_postorder checked lexed, ?_⟩
  intro s computable
  refine ⟨n.result s, ?_, evaluate_result computable⟩
  rw [p.direct_postorder, value s computable]

/-- A remainder keeps its brackets as the base of a power, at `x = 7` and `y = 4`. -/
theorem direct_toText_power :
    let settings : ParserSettings := {}
    let n : Node Fraction := .power ⟨.binary .remainder (.var ⟨'x', 0⟩ false) (.var ⟨'y', 0⟩ false),
      .binary .max (.var ⟨'x', 0⟩ false) (.number 2)⟩
    let s : Scope Fraction := { values := [("x", 7), ("y", 4)] }
    settings.parse "(x%y)^max(x,2)" = .ok n ∧
      n.Every Scalar.Finite (fun _ => True) (fun _ => True) ∧ n.Computable s ∧
      n.toText = "(x % y)^max(x, 2)" ∧
      ∃ symbols postfixed, ({} : ParserSettings).symbols n.toText = .ok symbols ∧
        ofInfix .round none symbols = .ok postfixed ∧
        ∃ x, direct s postfixed = some x ∧ n.evaluate (some s) = .ok (.number x) := by
  intro settings n s
  have parsed : settings.parse "(x%y)^max(x,2)" = .ok n := by
    have lexed : settings.symbols "(x%y)^max(x,2)" = .ok (["(", "x", "%", "y", ")", "^", "max", "(",
        "x", ",", "2", ")"].map Symbol.mk) := by decide +kernel
    have converted : ofInfix settings.brackets settings.maxDepth (["(", "x", "%", "y", ")", "^",
        "max", "(", "x", ",", "2", ")"].map Symbol.mk) =
          .ok (["x", "y", "%", "x", "2", "max", "^"].map Symbol.mk) := by decide
    have two : (Node.ofValue (Scalar.ofDecimal ⟨2, 0⟩) : Node Fraction) = .number 2 := by
      rw [FieldScalar.ofValue_eq]
      exact congrArg Node.number (by decide +kernel)
    refine bind_eq_ok.2 ⟨_, lexed, bind_eq_ok.2 ⟨_, converted, ?_⟩⟩
    show _ = Except.ok (Node.power ⟨.binary .remainder (.var ⟨'x', 0⟩ false) (.var ⟨'y', 0⟩ false),
      .binary .max (.var ⟨'x', 0⟩ false) (.number 2)⟩)
    rw [← two]
    rfl
  have finite : n.Every Scalar.Finite (fun _ => True) (fun _ => True) := by
    refine .power _ (.binary _ _ _ (.var _ _ trivial) (.var _ _ trivial))
      (.binary _ _ _ (.var _ _ trivial) (.number _ ?_))
    show Fraction.isWhole 2 = true
    decide
  have x : (Node.var ⟨'x', 0⟩ false : Node Fraction).Computable s :=
    .var _ _ 7 (by decide) (by decide +kernel)
  have y : (Node.var ⟨'y', 0⟩ false : Node Fraction).Computable s :=
    .var _ _ 4 (by decide) (by decide +kernel)
  have computable : n.Computable s := by
    refine .power _ (.binary _ _ _ x y) (.binary _ _ _ x (.number _)) ?_
    constructor
    · intro zero
      exact absurd zero (by decide +kernel)
    · intro negative
      exact absurd negative (by decide +kernel)
    · intro zero
      exact absurd zero (by decide +kernel)
  obtain ⟨symbols, postfixed, lexed, converted, value⟩ := direct_toText parsed finite
  exact ⟨parsed, finite, computable, by decide +kernel, symbols, postfixed, lexed, converted,
    value s computable⟩

/-- The variable `e_0` is written `e` and read as the constant, here `19/7` and not `5`. -/
theorem direct_toText_name :
    let settings : ParserSettings := {}
    let s : Scope Fraction := { values := [("e", 5)], collapseConstants := true }
    (do
      let n : Node Fraction ← settings.parse "e_0"
      return (← n.evaluate (some s)).value?) = .ok (some 5) ∧
    (do
      let n : Node Fraction ← settings.parse "e_0"
      let symbols ← settings.symbols n.toText
      let postfixed ← ofInfix settings.brackets none symbols
      return direct s postfixed) = .ok (some (19 / 7)) := by
  decide +kernel

/-- A sign stands before a power whose exponent only comes to one: at `x = 3`, `y = 2` and `z = 0`
the expression is `-9`, and its text is read as the square of `-3`. -/
example :
    let settings : ParserSettings := {}
    let s : Scope Fraction := { values := [("x", 3), ("y", 2), ("z", 0)] }
    (do
      let n : Node Fraction ← settings.parse "-(x^y^0^z)"
      return (← n.evaluate (some s)).value?) = .ok (some (-9)) ∧
    (do
      let n : Node Fraction ← settings.parse "-(x^y^0^z)"
      let symbols ← settings.symbols n.toText
      let postfixed ← ofInfix settings.brackets none symbols
      return direct s postfixed) = .ok (some 9) := by
  decide +kernel

end Node

end SymbolicAlgebra
