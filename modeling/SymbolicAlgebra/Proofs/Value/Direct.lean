/-
  Evaluating symbols in postfix order
  ===================================
  The plain stack evaluation: an operand puts its number on the stack, an operator or
  a function replaces the numbers it takes by its result. Nothing is built and nothing
  is simplified; only a division by zero, a name without a value and a stack that does
  not fit have no result.
-/
import SymbolicAlgebra.Infix.Symbol
import SymbolicAlgebra.Scope

namespace SymbolicAlgebra.Postfix

variable {α : Type} [Scalar α]

/-- The quotient, if the divisor is not zero. -/
def quotient? (x y : α) : Option α := if y == 0 then none else some (x / y)

/-- The number that an operand stands for. -/
def operandValue? (scope : Scope α) (s : Symbol) : Option α :=
  match s.numeral?, Constant.ofSymbol? s.text with
  | some d, _ => some (Scalar.ofDecimal d)
  | none, some c => if scope.collapseConstants then some (Scalar.constant c) else none
  | none, none =>
    match Variable.ofName? s.text with
    | .ok v => (scope.get v.name).toOption.join
    | .error _ => none

/-- The result of an operator with one operand. -/
def unaryValue? (s : Symbol) (x : α) : Option α :=
  match s.text.toList with
  | ['~'] => some (-x)
  | ['!'] => some (Scalar.unary .factorial x)
  | _ => none

/-- The result of an operator with two operands. -/
def binaryValue? (s : Symbol) (x y : α) : Option α :=
  match s.text.toList with
  | ['+'] => some (x + y)
  | ['-'] => some (x - y)
  | ['*'] | ['#'] => some (x * y)
  | ['/'] => quotient? x y
  | ['^'] => some (Scalar.power x y)
  | ['%'] => some (Scalar.binary .remainder x y)
  | _ => none

theorem unaryValue?_eq_some {s : Symbol} {x z : α} (result : unaryValue? s x = some z) :
    s.text.toList = ['~'] ∧ z = -x ∨ s.text.toList = ['!'] ∧ z = Scalar.unary .factorial x := by
  unfold unaryValue? at result
  split at result
  · rename_i sign
    cases result
    exact .inl ⟨sign, rfl⟩
  · rename_i sign
    cases result
    exact .inr ⟨sign, rfl⟩
  · cases result

/-- What the operators with two operands are, and what they give. -/
theorem binaryValue?_eq_some {s : Symbol} {x y z : α} (result : binaryValue? s x y = some z) :
    s.text.toList = ['+'] ∧ z = x + y ∨ s.text.toList = ['-'] ∧ z = x - y ∨
      (s.text.toList = ['*'] ∨ s.text.toList = ['#']) ∧ z = x * y ∨
      (s.text.toList = ['/'] ∧ (y == 0) = false ∧ z = x / y) ∨
      s.text.toList = ['^'] ∧ z = Scalar.power x y ∨
      s.text.toList = ['%'] ∧ z = Scalar.binary .remainder x y := by
  unfold binaryValue? at result
  split at result
  · rename_i sign
    cases result
    exact .inl ⟨sign, rfl⟩
  · rename_i sign
    cases result
    exact .inr (.inl ⟨sign, rfl⟩)
  · rename_i sign
    cases result
    exact .inr (.inr (.inl ⟨.inl sign, rfl⟩))
  · rename_i sign
    cases result
    exact .inr (.inr (.inl ⟨.inr sign, rfl⟩))
  · rename_i sign
    unfold quotient? at result
    split at result
    · cases result
    · rename_i nonzero
      cases result
      exact .inr (.inr (.inr (.inl ⟨sign, by simpa using nonzero, rfl⟩)))
  · rename_i sign
    cases result
    exact .inr (.inr (.inr (.inr (.inl ⟨sign, rfl⟩))))
  · rename_i sign
    cases result
    exact .inr (.inr (.inr (.inr (.inr ⟨sign, rfl⟩))))
  · cases result

/-- What the operands are, and what they give. -/
theorem operandValue?_eq_some {scope : Scope α} {s : Symbol} {x : α}
    (found : operandValue? scope s = some x) :
    (∃ d, s.numeral? = some d ∧ x = Scalar.ofDecimal d) ∨
      s.numeral? = none ∧
        ((∃ c, Constant.ofSymbol? s.text = some c ∧ scope.collapseConstants = true ∧
            x = Scalar.constant c) ∨
          Constant.ofSymbol? s.text = none ∧
            ∃ v, Variable.ofName? s.text = .ok v ∧ scope.get v.name = .ok (some x)) := by
  unfold operandValue? at found
  split at found
  · rename_i d numeral
    cases found
    exact .inl ⟨d, numeral, rfl⟩
  · rename_i c numeral constant
    by_cases collapsed : scope.collapseConstants = true
    · rw [if_pos collapsed] at found
      cases found
      exact .inr ⟨numeral, .inl ⟨c, constant, collapsed, rfl⟩⟩
    · rw [if_neg collapsed] at found
      cases found
  · rename_i numeral constant
    refine .inr ⟨numeral, .inr ⟨constant, ?_⟩⟩
    split at found
    · rename_i v read
      refine ⟨v, read, ?_⟩
      cases got : scope.get v.name with
      | error _ =>
        rw [got] at found
        cases found
      | ok value =>
        rw [got] at found
        exact congrArg Except.ok found
    · cases found

/-- Takes one symbol; the head of the stack is its top. -/
def directStep (scope : Scope α) (stack : List α) (s : Symbol) : Option (List α) :=
  if s.isOperand then (operandValue? scope s).map (· :: stack)
  else
    match s.function?, stack with
    | some (.unary f), x :: rest => some (Scalar.unary f x :: rest)
    | some (.binary f), y :: x :: rest => some (Scalar.binary f x y :: rest)
    | some _, _ => none
    | none, stack =>
      if s.arity = 1 then
        match stack with
        | x :: rest => (unaryValue? s x).map (· :: rest)
        | _ => none
      else
        match stack with
        | y :: x :: rest => (binaryValue? s x y).map (· :: rest)
        | _ => none

/-- The number that symbols in postfix order write; no symbols write zero. -/
def direct (scope : Scope α) (symbols : List Symbol) : Option α :=
  match symbols.foldlM (directStep scope) [] with
  | some [] => some 0
  | some [x] => some x
  | _ => none

end SymbolicAlgebra.Postfix
