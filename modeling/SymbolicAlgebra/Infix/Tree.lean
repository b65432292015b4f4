/-
  Trees from postfix order
  ========================
  Reading symbols in postfix order with a stack of nodes: an operand is put on the
  stack, an operator or a function replaces its operands by its result.
-/
import SymbolicAlgebra.Infix.Symbol
import SymbolicAlgebra.Node.Arithmetic

namespace SymbolicAlgebra.Postfix

variable {α : Type} [Scalar α]

/-- The result of an operator with one operand; none if the symbol is no such operator. -/
def applyUnary (s : Symbol) (x : Node α) : Checked (Node α) :=
  match s.text.toList with
  | ['~'] => .ok x.negate
  | ['!'] => .ok (.unary .factorial x)
  | _ => .error (.unknownOperation s.text)

/-- The result of an operator with two operands. -/
def applyBinary (s : Symbol) (x y : Node α) : Checked (Node α) :=
  match s.text.toList with
  | ['+'] => x.add y
  | ['-'] => x.subtract y
  | ['*'] | ['#'] => x.multiply y
  | ['/'] => x.divide y
  | ['^'] => .ok (x.raise y)
  | ['%'] => .ok (.binary .remainder x y)
  | _ => .error (.unknownOperation s.text)

/-- Takes one symbol; the head of the stack is its top. -/
def reduceStack (stack : List (Node α)) (s : Symbol) : Checked (List (Node α)) :=
  let tooFew := .error (.parse (.tooFewOperands s.text s.arity stack.length))
  if s.isOperand then return (← s.toOperand) :: stack
  else
    match s.function?, stack with
    | some (.unary f), x :: rest => .ok (.unary f x :: rest)
    | some (.binary f), y :: x :: rest => .ok (.binary f x y :: rest)
    | some _, _ => tooFew
    | none, stack =>
      if s.arity = 1 then
        match stack with
        | x :: rest => return (← applyUnary s x) :: rest
        | _ => tooFew
      else
        match stack with
        | y :: x :: rest => return (← applyBinary s x y) :: rest
        | _ => tooFew

/-- The expression that symbols in postfix order write; no symbols write zero. -/
def toNode (symbols : List Symbol) : Checked (Node α) := do
  match ← symbols.foldlM reduceStack [] with
  | [] => return .number 0
  | [n] => return n
  | stack =>
    .error (.parse (.tooManyOperands stack.length ((symbols.getLast?.map (·.text)).getD "")))

end SymbolicAlgebra.Postfix
