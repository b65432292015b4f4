/-
  Symbols
  =======
  A token of an expression and the questions that decide what it is: an operand
  (number, constant or variable), a function, an operator, a bracket or the argument
  separator. Brackets depend on a table; the other classes are fixed.

  The marker `#` stands for a multiplication that is not written, and `~` for a
  minus sign in front of an operand.
-/
import SymbolicAlgebra.Infix.Bracket
import SymbolicAlgebra.Node.Term

namespace SymbolicAlgebra

open SymbolicAlgebra.Text

/-- A token of an expression. -/
structure Symbol where
  text : String
deriving DecidableEq, Repr

namespace Symbol

/-! ### Markers and operators -/

/-- The sign of a multiplication that is not written. -/
def multiplicationMark : Char := '#'

/-- The sign of a minus in front of an operand. -/
def negationMark : Char := '~'

/-- The sign between the arguments of a call. -/
def separator : Char := ','

/-- The signs of operators with an operand on either side. -/
def binarySigns : List Char := ['+', '-', '*', '/', '^', '%']

/-- All operator signs that a text may hold. -/
def operatorSigns : List Char := ['+', '-', '*', '/', '^', '%', '!']

/-- How tightly an operator binds; `none` for what is no operator. Negation binds tighter than
powers, and a difference tighter than a sum. -/
def precedence? (s : Symbol) : Option Nat :=
  match s.text.toList with
  | ['!'] => some 6
  | ['~'] => some 5
  | ['^'] => some 4
  | ['*'] | ['#'] | ['%'] | ['/'] => some 3
  | ['-'] => some 2
  | ['+'] => some 1
  | _ => none

/-- Whether the symbol is an operator or a marker. -/
def isOperator (s : Symbol) : Bool := s.precedence?.isSome

/-- Whether the symbol follows its operand. -/
def isPostfix (s : Symbol) : Bool := s.text.toList.isPrefixOf ['!']

/-- Whether a chain of the operator groups to the right. -/
def isRightAssociative (s : Symbol) : Bool :=
  match s.text.toList with
  | ['^'] | ['~'] => true
  | _ => false

/-- Whether the symbol is the argument separator. -/
def isSeparator (s : Symbol) : Bool := s.text.toList == [separator]

/-! ### Operands -/

/-- The number that a numeral writes: digits with at most one point, and a digit on at least
one side of it. One line feed may follow. -/
def numeral? (s : Symbol) : Option Decimal :=
  let cs := withoutLineEnd s.text.toList
  let whole := cs.takeWhile isDecimal
  match cs.dropWhile isDecimal with
  | [] => if whole.isEmpty then none else some ⟨Decimal.ofDigits whole, 0⟩
  | '.' :: fraction =>
    if fraction.all isDecimal && !(whole.isEmpty && fraction.isEmpty) then
      some ⟨Decimal.ofDigits (whole ++ fraction), -fraction.length⟩
    else none
  | _ => none

/-- Whether the symbol is a numeral. -/
def isNumber (s : Symbol) : Bool := s.numeral?.isSome

/-- Whether the symbol is a constant. -/
def isConstant (s : Symbol) : Bool := (Constant.ofSymbol? s.text).isSome

/-- Whether the symbol is a variable. -/
def isVariable (s : Symbol) : Bool := isVariableName s.text && !s.isConstant

/-- Whether the symbol is an operand. -/
def isOperand (s : Symbol) : Bool := s.isNumber || s.isConstant || s.isVariable

/-- The node of an operand. -/
def toOperand {α : Type} [Scalar α] (s : Symbol) : Checked (Node α) :=
  match s.numeral?, Constant.ofSymbol? s.text with
  | some d, _ => .ok (Node.ofValue (Scalar.ofDecimal d))
  | none, some c => .ok (.constant c false)
  | none, none =>
    if s.isVariable then do return .var (← Variable.ofName? s.text) false
    else .error (.parse (.notOperand s.text))

/-! ### Functions and brackets -/

/-- The function that the symbol names. -/
def function? (s : Symbol) : Option Function := Function.ofName? s.text

/-- Whether the symbol names a function. -/
def isFunction (s : Symbol) : Bool := s.function?.isSome

/-- How many operands the symbol takes. -/
def arity (s : Symbol) : Nat :=
  match s.function? with
  | some f => f.arity
  | none =>
    match s.text.toList with
    | ['~'] | ['!'] => 1
    | _ => 2

/-- Whether the symbol is an opening bracket of the table. -/
def isOpen (table : BracketTable) (s : Symbol) : Bool := table.standsAt 0 s.text.toList

/-- Whether the symbol is a closing bracket of the table. -/
def isClose (table : BracketTable) (s : Symbol) : Bool := table.standsAt 1 s.text.toList

/-- Whether the symbol closes the opener: it is the character behind the opener in the table. -/
def closes (table : BracketTable) (s opener : Symbol) : Checked Bool :=
  match table.follower? opener.text.toList with
  | some c => .ok (s.text.toList == [c])
  | none => .error .outOfRange

/-! ### Validity -/

/-- Whether the symbol belongs to some class. -/
def isValid (table : BracketTable) (s : Symbol) : Bool :=
  s.isOperand || s.isFunction || s.isOperator || s.isOpen table || s.isClose table || s.isSeparator

/-- The symbol itself if it belongs to some class. -/
def validate (table : BracketTable) (s : Symbol) : Checked Symbol :=
  if s.isValid table then .ok s else .error (.parse (.unknownToken s.text))

/-- The symbols of some tokens, all of which must belong to a class. -/
def classify (table : BracketTable) (tokens : List String) : Checked (List Symbol) :=
  tokens.mapM fun text => validate table ⟨text⟩

end Symbol

end SymbolicAlgebra
