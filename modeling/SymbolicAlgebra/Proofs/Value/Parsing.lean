/-
  Trees mean what their text means
  ================================
  The stack of nodes and the stack of numbers run side by side, the numbers being the
  values of the nodes (**`Postfix.reduceStack_spec`**, **`Postfix.foldlM_reduceStack`**),
  so what a text is parsed to evaluates to what its symbols say:
  **`ParserSettings.evaluate_parse`**.

  This needs every power that is built to obey the stable discipline. Without it two
  fractions may be added over denominators that differ: `1 + (2x)^(-1)` keeps `2x` as
  one divisor, dissolves it when it is multiplied into the other fraction, and comes
  out as `2` at `x = 1`. The discipline asks for more than it has to: a base like `x + 1`
  does not dissolve, so `1 + (x+1)^(-1)` is built rightly, but `(x+1)^(-1)` does not obey.
-/
import SymbolicAlgebra.Proofs.Value.Arithmetic
import SymbolicAlgebra.Proofs.Value.Rational
import SymbolicAlgebra.Proofs.Value.Direct
import SymbolicAlgebra.Infix.Parser

namespace SymbolicAlgebra

namespace Postfix

variable {α : Type} [FieldScalar α]

/-- The exponent is a whole number, zero is not raised to a negative one, and the power that is
built obeys the stable discipline. -/
structure Raises (s : Scope α) (m n : Node α) : Prop where
  whole : Scalar.isWhole (n.value s) = true
  defined : m.value s = 0 → 0 ≤ Scalar.toInt (n.value s)
  raised : Discipline.stable.Raised s (Factor.raised m n)

/-- While the symbols are read, every power that is built obeys the stable discipline. That is enough
for the tree to be right, but not needed. -/
def Guarded (s : Scope α) : List (Node α) → List Symbol → Prop
  | _, [] => True
  | stack, symbol :: symbols =>
    (∀ m n below, stack = n :: m :: below → symbol.text.toList = ['^'] → Raises s m n) ∧
      ∀ next, reduceStack stack symbol = .ok next → Guarded s next symbols

/-- Symbols that write no power are guarded. -/
theorem guarded_of_no_power {s : Scope α} {symbols : List Symbol}
    (none : ∀ symbol ∈ symbols, symbol.text.toList ≠ ['^']) (stack : List (Node α)) :
    Guarded s stack symbols := by
  induction symbols generalizing stack with
  | nil => trivial
  | cons symbol symbols ih =>
    obtain ⟨first, later⟩ := List.forall_mem_cons.1 none
    exact ⟨fun m n below _ sign => absurd sign first, fun next _ => ih later next⟩

/-! ### Both stacks side by side -/

variable {s : Scope α}

theorem toOperand_spec {symbol : Symbol} {x : α} (known : symbol.isOperand = true)
    (found : operandValue? s symbol = some x) :
    ∃ n : Node α, symbol.toOperand = .ok n ∧ n.Admitted .stable s ∧ n.value s = x := by
  rcases operandValue?_eq_some found with ⟨d, numeral, rfl⟩ | ⟨numeral, operand⟩
  · refine ⟨Node.ofValue (Scalar.ofDecimal d), ?_, .number _, ?_⟩
    · rw [Symbol.toOperand, numeral]
    · rw [FieldScalar.ofValue_eq, Node.value]
  rcases operand with ⟨c, constant, collapsed, rfl⟩ | ⟨constant, v, read, bound⟩
  · refine ⟨.constant c false, ?_, .constant c false collapsed, ?_⟩
    · rw [Symbol.toOperand, numeral, constant]
    · rw [Node.value]
      rfl
  · have named : symbol.isVariable = true := by
      rw [Symbol.isOperand, Symbol.isNumber, Symbol.isConstant, numeral, constant] at known
      simpa using known
    refine ⟨.var v false, ?_, .var v false x bound, ?_⟩
    · rw [Symbol.toOperand, numeral, constant]
      dsimp only
      rw [if_pos named, read]
      rfl
    · rw [Node.value, Scope.lookup_of_get bound]
      rfl

variable [ExactScalar α]

theorem applyUnary_spec {symbol : Symbol} {n : Node α} (h : n.Admitted .stable s) {x : α}
    (result : unaryValue? symbol (n.value s) = some x) :
    ∃ r, applyUnary symbol n = .ok r ∧ r.Admitted .stable s ∧ r.value s = x := by
  rcases unaryValue?_eq_some result with ⟨sign, rfl⟩ | ⟨sign, rfl⟩
  · obtain ⟨admitted, value⟩ := Node.negate_spec h
    rw [applyUnary, sign]
    exact ⟨_, rfl, admitted, value⟩
  · rw [applyUnary, sign]
    refine ⟨_, rfl, .unary .factorial n h, ?_⟩
    rw [Node.value]

theorem applyBinary_spec {symbol : Symbol} {m n : Node α} (hm : m.Admitted .stable s)
    (hn : n.Admitted .stable s) (raises : symbol.text.toList = ['^'] → Raises s m n) {x : α}
    (result : binaryValue? symbol (m.value s) (n.value s) = some x) :
    ∃ r, applyBinary symbol m n = .ok r ∧ r.Admitted .stable s ∧ r.value s = x := by
  rcases binaryValue?_eq_some result with ⟨sign, rfl⟩ | ⟨sign, rfl⟩ | ⟨sign | sign, rfl⟩ |
    ⟨sign, nonzero, rfl⟩ | ⟨sign, rfl⟩ | ⟨sign, rfl⟩
  · rw [applyBinary, sign]
    exact Node.add_spec hm hn
  · rw [applyBinary, sign]
    exact Node.subtract_spec hm hn
  · rw [applyBinary, sign]
    exact Node.multiply_spec hm hn
  · rw [applyBinary, sign]
    exact Node.multiply_spec hm hn
  · rw [applyBinary, sign]
    exact Node.divide_spec hm hn (by simpa using nonzero)
  · obtain ⟨whole, defined, raised⟩ := raises sign
    obtain ⟨admitted, value⟩ := Node.raise_spec hm hn whole defined trivial raised
    rw [applyBinary, sign]
    refine ⟨_, rfl, admitted, ?_⟩
    rw [value, ExactScalar.power_eq whole defined]
  · rw [applyBinary, sign]
    refine ⟨_, rfl, .binary .remainder m n hm hn, ?_⟩
    rw [Node.value]

/-- One symbol on both stacks: where the numbers have a result, so have the nodes, and its values
are these numbers. -/
theorem reduceStack_spec {symbol : Symbol} {nodes : List (Node α)}
    (admitted : ∀ n ∈ nodes, n.Admitted .stable s)
    (raises : ∀ m n below, nodes = n :: m :: below → symbol.text.toList = ['^'] → Raises s m n)
    {values : List α} (step : directStep s (nodes.map (Node.value s)) symbol = some values) :
    ∃ next, reduceStack nodes symbol = .ok next ∧ (∀ n ∈ next, n.Admitted .stable s) ∧
      next.map (Node.value s) = values := by
  unfold directStep at step
  unfold reduceStack
  by_cases known : symbol.isOperand = true
  · rw [if_pos known] at step ⊢
    obtain ⟨x, found, rfl⟩ := Option.map_eq_some_iff.1 step
    obtain ⟨n, read, operand, value⟩ := toOperand_spec known found
    refine ⟨n :: nodes, ?_, List.forall_mem_cons.2 ⟨operand, admitted⟩, ?_⟩
    · rw [read]
      rfl
    · rw [List.map_cons, value]
  · rw [if_neg known] at step ⊢
    cases named : symbol.function? with
    | some f =>
      rw [named] at step
      cases f with
      | unary f =>
        rcases nodes with _ | ⟨n, nodes⟩
        · cases step
        · obtain ⟨first, later⟩ := List.forall_mem_cons.1 admitted
          cases step
          refine ⟨_, rfl, List.forall_mem_cons.2 ⟨.unary f n first, later⟩, ?_⟩
          rw [List.map_cons, Node.value]
      | binary f =>
        rcases nodes with _ | ⟨n, _ | ⟨m, nodes⟩⟩
        · cases step
        · cases step
        · obtain ⟨second, rest⟩ := List.forall_mem_cons.1 admitted
          obtain ⟨first, later⟩ := List.forall_mem_cons.1 rest
          cases step
          refine ⟨_, rfl, List.forall_mem_cons.2 ⟨.binary f m n first second, later⟩, ?_⟩
          rw [List.map_cons, Node.value]
    | none =>
      rw [named] at step
      dsimp only at step ⊢
      by_cases single : symbol.arity = 1
      · rw [if_pos single] at step ⊢
        rcases nodes with _ | ⟨n, nodes⟩
        · cases step
        · obtain ⟨first, later⟩ := List.forall_mem_cons.1 admitted
          obtain ⟨x, result, rfl⟩ := Option.map_eq_some_iff.1 step
          obtain ⟨r, applied, operand, value⟩ := applyUnary_spec first result
          refine ⟨r :: nodes, ?_, List.forall_mem_cons.2 ⟨operand, later⟩, ?_⟩
          · dsimp only
            rw [applied]
            rfl
          · rw [List.map_cons, value]
      · rw [if_neg single] at step ⊢
        rcases nodes with _ | ⟨n, _ | ⟨m, nodes⟩⟩
        · cases step
        · cases step
        · obtain ⟨second, rest⟩ := List.forall_mem_cons.1 admitted
          obtain ⟨first, later⟩ := List.forall_mem_cons.1 rest
          obtain ⟨x, result, rfl⟩ := Option.map_eq_some_iff.1 step
          obtain ⟨r, applied, operand, value⟩ :=
            applyBinary_spec first second (raises m n nodes rfl) result
          refine ⟨r :: nodes, ?_, List.forall_mem_cons.2 ⟨operand, later⟩, ?_⟩
          · dsimp only
            rw [applied]
            rfl
          · rw [List.map_cons, value]

/-- All symbols on both stacks. -/
theorem foldlM_reduceStack {symbols : List Symbol} {nodes : List (Node α)}
    (admitted : ∀ n ∈ nodes, n.Admitted .stable s) (guarded : Guarded s nodes symbols)
    {values : List α} (run : symbols.foldlM (directStep s) (nodes.map (Node.value s)) = some values) :
    ∃ next, symbols.foldlM reduceStack nodes = .ok next ∧ (∀ n ∈ next, n.Admitted .stable s) ∧
      next.map (Node.value s) = values := by
  induction symbols generalizing nodes with
  | nil =>
    cases run
    exact ⟨nodes, rfl, admitted, rfl⟩
  | cons symbol symbols ih =>
    obtain ⟨raises, later⟩ := guarded
    rw [List.foldlM_cons] at run
    obtain ⟨middle, step, rest⟩ := Option.bind_eq_some_iff.1 run
    obtain ⟨next, reduced, operands, rfl⟩ := reduceStack_spec admitted raises step
    obtain ⟨last, finished, members, ends⟩ := ih operands (later next reduced) rest
    refine ⟨last, ?_, members, ends⟩
    rw [List.foldlM_cons, reduced]
    exact finished

/-- The tree of symbols that have a direct value. -/
theorem toNode_spec {symbols : List Symbol} (guarded : Guarded s [] symbols) {x : α}
    (value : direct s symbols = some x) :
    ∃ n, toNode symbols = .ok n ∧ n.Admitted .stable s ∧ n.value s = x := by
  unfold direct at value
  unfold toNode
  split at value
  · rename_i run
    cases value
    obtain ⟨next, finished, -, none⟩ := foldlM_reduceStack (List.forall_mem_nil _) guarded run
    obtain rfl := List.map_eq_nil_iff.1 none
    rw [finished]
    refine ⟨_, rfl, .number 0, ?_⟩
    rw [Node.value]
  · rename_i y run
    cases value
    obtain ⟨next, finished, members, single⟩ := foldlM_reduceStack (List.forall_mem_nil _) guarded run
    obtain ⟨n, rfl, value⟩ := List.map_eq_singleton_iff.1 single
    rw [finished]
    exact ⟨n, rfl, members n List.mem_cons_self, value⟩
  · cases value

end Postfix

open Postfix

/-- A text whose symbols have a direct value is parsed to an expression that evaluates to it, if
every power is built as it must be; and adding two expressions, over a common denominator if they
have divisors, gives the sum of what they evaluate to. -/
theorem ParserSettings.evaluate_parse {α : Type} [FieldScalar α] [ExactScalar α]
    {settings : ParserSettings} {text : String} {symbols postfixed : List Symbol}
    (lexed : settings.symbols text = .ok symbols)
    (converted : ofInfix settings.brackets settings.maxDepth symbols = .ok postfixed)
    {s : Scope α} (guarded : Guarded s [] postfixed) {x : α} (value : direct s postfixed = some x) :
    (∃ n, settings.parse text = .ok n ∧ n.evaluate (some s) = .ok (.number x)) ∧
      ∀ m n : Node α, m.Admitted .stable s → n.Admitted .stable s →
        ∃ y z r, m.evaluate (some s) = .ok (.number y) ∧ n.evaluate (some s) = .ok (.number z) ∧
          m.add n = .ok r ∧ r.evaluate (some s) = .ok (.number (y + z)) := by
  constructor
  · obtain ⟨n, built, admitted, same⟩ := toNode_spec guarded value
    have reduced := Node.reduce_replaces admitted
    refine ⟨n.reduce, ?_, ?_⟩
    · unfold parse
      rw [lexed]
      show (do
        let postfixed ← ofInfix settings.brackets settings.maxDepth symbols
        return (← toNode postfixed).reduce) = _
      rw [converted]
      show (do return (← toNode postfixed).reduce) = _
      rw [built]
      rfl
    · rw [Node.evaluate_eq reduced.admitted, reduced.value, same]
  · intro m n hm hn
    obtain ⟨r, added, admitted, value⟩ := Node.add_spec hm hn
    refine ⟨m.value s, n.value s, r, Node.evaluate_eq hm, Node.evaluate_eq hn, added, ?_⟩
    rw [Node.evaluate_eq admitted, value]

/-- A negative power of a variable and a sum of fractions, at `x = 2` and `y = 1`. -/
theorem ParserSettings.evaluate_parse_fractions :
    let settings : ParserSettings := {}
    let s : Scope ℚ := { values := [("x", 2), ("y", 1)] }
    let symbols : List Symbol := ["x", "^", "(", "~", "2", ")", "+", "1", "/", "(", "x", "+", "y",
      ")"].map Symbol.mk
    let postfixed : List Symbol := ["x", "2", "~", "^", "1", "x", "y", "+", "/", "+"].map Symbol.mk
    settings.symbols "x^(-2)+1/(x+y)" = .ok symbols ∧
      ofInfix settings.brackets settings.maxDepth symbols = .ok postfixed ∧
      Guarded s [] postfixed ∧ direct s postfixed = some (7 / 12) ∧
      ((∃ n : Node ℚ, settings.parse "x^(-2)+1/(x+y)" = .ok n ∧
          n.evaluate (some s) = .ok (.number (7 / 12))) ∧
        ∀ m n : Node ℚ, m.Admitted .stable s → n.Admitted .stable s →
          ∃ y z r, m.evaluate (some s) = .ok (.number y) ∧ n.evaluate (some s) = .ok (.number z) ∧
            m.add n = .ok r ∧ r.evaluate (some s) = .ok (.number (y + z))) := by
  intro settings s symbols postfixed
  have lexed : settings.symbols "x^(-2)+1/(x+y)" = .ok symbols := by decide +kernel
  have converted : ofInfix settings.brackets settings.maxDepth symbols = .ok postfixed := by
    decide +kernel
  have value : direct s postfixed = some (7 / 12) := by decide +kernel
  have guarded : Guarded s [] postfixed := by
    refine ⟨(fun m n below shape => nomatch shape), fun first read => ?_⟩
    obtain rfl : [Node.var ⟨'x', 0⟩ false] = first := Except.ok.inj read
    refine ⟨(fun m n below shape => nomatch shape), fun second read => ?_⟩
    obtain rfl : [Node.ofValue (Scalar.ofDecimal ⟨2, 0⟩), Node.var ⟨'x', 0⟩ false] = second :=
      Except.ok.inj read
    refine ⟨fun m n below _ sign => absurd sign (by decide), fun third read => ?_⟩
    obtain rfl : [Node.ofValue (-Scalar.unsignedZero (Scalar.ofDecimal ⟨2, 0⟩)),
        Node.var ⟨'x', 0⟩ false] = third := Except.ok.inj read
    refine ⟨fun m n below shape _ => ?_, fun fourth read => ?_⟩
    · cases shape
      have two : (Node.var ⟨'x', 0⟩ false : Node ℚ).value s ≠ 0 := by decide +kernel
      refine ⟨by decide +kernel, fun zero => absurd zero two, ⟨.inl rfl, fun zero => ?_⟩⟩
      exact absurd zero two
    · exact guarded_of_no_power (by decide) fourth
  exact ⟨lexed, converted, guarded, value, evaluate_parse lexed converted guarded value⟩

/-- The inverse of a product is wrong in a sum: at `x = 1` the text says `3/2`, its tree `2`. -/
theorem ParserSettings.evaluate_parse_inverse :
    let settings : ParserSettings := {}
    let s : Scope ℚ := { values := [("x", 1)] }
    (do
      let symbols ← settings.symbols "1+(2x)^(-1)"
      let postfixed ← ofInfix settings.brackets settings.maxDepth symbols
      return direct s postfixed) = .ok (some (3 / 2)) ∧
    (do
      let n : Node ℚ ← settings.parse "1+(2x)^(-1)"
      return (← n.evaluate (some s)).value?) = .ok (some 2) := by
  decide +kernel

end SymbolicAlgebra
