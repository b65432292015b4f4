/-
  Failures
  ========
  Why an operation can refuse its input. Every cause is a constructor with the data
  of that cause; the wording is in the `message` functions and nowhere else.

  A `ParseError` is about the text of an expression, a `ConfigurationError` about
  the settings and bindings around it; `Failure` adds the causes that come from
  building and computing with nodes.
-/
import SymbolicAlgebra.Text.Quoted

namespace SymbolicAlgebra

open SymbolicAlgebra.Text

/-- Why a text is not an expression. -/
inductive ParseError where
  | unexpectedCharacter (c : Char) (position : Nat) (text : String)
  | unknownIdentifier (run : String)
  | unknownToken (text : String)
  | notOperand (text : String)
  | unmatchedClose (bracket : String)
  | unmatchedOpen (bracket : String)
  | crossedBrackets (opener closer : String)
  | unexpectedOperator (token : String) (previous : Option String)
  | missingOperand (token : String)
  | trailingOperator (token : String)
  | callWithoutBracket (function : String)
  | separatorOutsideCall (separator : String)
  | argumentCount (function : String) (expected found : Nat)
  | nestedTooDeep (limit : Int) (bracket : String)
  | tooFewOperands (symbol : String) (expected found : Nat)
  | tooManyOperands (count : Nat) (lastSymbol : String)
  | notOneEquals (text : String)
  | emptySide (text : String)
deriving DecidableEq, Repr

/-- Why a setting or a binding is refused. -/
inductive ConfigurationError where
  | unpairedBrackets (table : String)
  | duplicateBrackets (table : String)
  | reservedBracket (c : Char)
  | depthBelowOne (depth : Int)
  | invalidName (name : String)
  | notAssignment (text : String)
  | invalidValue (assignment : String)
deriving DecidableEq, Repr

/-- Why an operation gives no result. -/
inductive Failure where
  | parse (cause : ParseError)
  | configuration (cause : ConfigurationError)
  /-- A variable without a binding was looked up. -/
  | unbound (name : String)
  /-- The text is not one letter. -/
  | invalidLetter (text : String)
  | negativeSubscript
  /-- The text is not a whole number. -/
  | notInteger (text : String)
  | unknownConstant (text : String)
  /-- A call is built with the wrong number of arguments. -/
  | malformedCall (function : String) (expected : Nat)
  /-- A function is applied to the wrong number of values. -/
  | misapplied (function : String) (expected found : Nat)
  /-- No operation or function belongs to the symbol. -/
  | unknownOperation (symbol : String)
  /-- A position outside a table or below an empty stack was asked for. -/
  | outOfRange
  /-- A fraction cannot be scaled to whole parts. -/
  | overflow
deriving DecidableEq, Repr

/-- Results of operations that can fail. -/
abbrev Checked (β : Type) := Except Failure β

/-- A character between quotes. -/
def quotedChar (c : Char) : String := quoted (String.singleton c)

namespace ParseError

/-- The class a report names. -/
def kind : ParseError → String
  | .unexpectedCharacter .. | .unknownIdentifier _ | .unknownToken _ | .notOperand _ =>
    "UnknownTokenError"
  | .unmatchedClose _ | .unmatchedOpen _ | .crossedBrackets .. => "MismatchedBracketError"
  | .unexpectedOperator .. | .missingOperand _ | .trailingOperator _ | .callWithoutBracket _ =>
    "OperatorSequenceError"
  | .separatorOutsideCall _ | .argumentCount .. => "ArgumentCountError"
  | .nestedTooDeep .. => "NestingDepthError"
  | .tooFewOperands .. => "OperandUnderflowError"
  | .tooManyOperands .. => "OperandOverflowError"
  | .notOneEquals _ | .emptySide _ => "ParseError"

/-- What a report says. -/
def message : ParseError → String
  | .unexpectedCharacter c position text =>
    "Unexpected character " ++ quotedChar c ++ " at position " ++ toString position ++ " in "
      ++ quoted text
  | .unknownIdentifier run => "Unknown identifier " ++ quoted run
  | .unknownToken text => "Unknown token: " ++ quoted text
  | .notOperand text => "Not an operand: " ++ quoted text
  | .unmatchedClose bracket => "Unmatched closing bracket " ++ bracket
  | .unmatchedOpen bracket => "Unmatched opening bracket " ++ bracket
  | .crossedBrackets opener closer => "Bracket " ++ opener ++ " closed by " ++ closer
  | .unexpectedOperator token previous =>
    "Unexpected operator " ++ quoted token ++ " after "
      ++ (match previous with | some text => quoted text | none => "None")
  | .missingOperand token => "Missing operand before " ++ quoted token
  | .trailingOperator token => "Expression ends with operator " ++ quoted token
  | .callWithoutBracket function => "Function " ++ function ++ " must be followed by a bracket"
  | .separatorOutsideCall _ => "Argument separator outside a function call"
  | .argumentCount function expected found =>
    function ++ " takes " ++ toString expected ++ " arguments, got " ++ toString found
  | .nestedTooDeep limit _ => "Brackets nested deeper than " ++ toString limit
  | .tooFewOperands symbol expected found =>
    symbol ++ " needs " ++ toString expected ++ " operand" ++ (if expected = 1 then "" else "s")
      ++ ", found " ++ toString found
  | .tooManyOperands count _ => toString count ++ " operands left without an operator"
  | .notOneEquals text => "Expected exactly one \x27=\x27 in " ++ quoted text
  | .emptySide text => "Both sides of " ++ quoted text ++ " must be non-empty"

/-- The piece of the text that a report points to. -/
def token : ParseError → String
  | .unexpectedCharacter c _ _ => String.singleton c
  | .unknownIdentifier run => run
  | .unknownToken text => text
  | .notOperand text => text
  | .unmatchedClose bracket => bracket
  | .unmatchedOpen bracket => bracket
  | .crossedBrackets _ closer => closer
  | .unexpectedOperator token _ => token
  | .missingOperand token => token
  | .trailingOperator token => token
  | .callWithoutBracket function => function
  | .separatorOutsideCall separator => separator
  | .argumentCount function _ _ => function
  | .nestedTooDeep _ bracket => bracket
  | .tooFewOperands symbol _ _ => symbol
  | .tooManyOperands _ lastSymbol => lastSymbol
  | .notOneEquals _ => "="
  | .emptySide _ => "="

end ParseError

namespace ConfigurationError

/-- What a report says. -/
def message : ConfigurationError → String
  | .unpairedBrackets table =>
    "Brackets must be given in open/close pairs, got " ++ quoted table
  | .duplicateBrackets table => "Duplicate bracket characters in " ++ quoted table
  | .reservedBracket c => quotedChar c ++ " cannot be used as a bracket"
  | .depthBelowOne depth => "max_depth must be at least 1, got " ++ toString depth
  | .invalidName name => "Invalid variable name: " ++ quoted name
  | .notAssignment text => "Expected name=value, got " ++ quoted text
  | .invalidValue assignment => "Invalid value in " ++ quoted assignment

/-- The text that a report points to, if there is one. -/
def token : ConfigurationError → Option String
  | .unpairedBrackets table => some table
  | .duplicateBrackets table => some table
  | .reservedBracket c => some (String.singleton c)
  | .depthBelowOne _ => none
  | .invalidName name => some name
  | .notAssignment text => some text
  | .invalidValue assignment => some assignment

end ConfigurationError

/-- What is shown to the author of an expression: the class of the failure, what it says and
the text it points to. -/
structure Report where
  kind : String
  message : String
  token : Option String
deriving DecidableEq, Repr

namespace Failure

/-- The report on a failure that the author of an expression can mend; `none` for the causes
that lie in the use of the library. -/
def report? : Failure → Option Report
  | .parse cause => some ⟨cause.kind, cause.message, some cause.token⟩
  | .configuration cause => some ⟨"ConfigurationError", cause.message, cause.token⟩
  | .unbound name =>
    some ⟨"UnboundVariableError", "Variable " ++ name ++ " is not bound", some name⟩
  | _ => none

/-- What the failure says, empty where its cause says all. -/
def message : Failure → String
  | .parse cause => cause.message
  | .configuration cause => cause.message
  | .unbound name => "Variable " ++ name ++ " is not bound"
  | .invalidLetter text => "Invalid variable letter: " ++ quoted text
  | .negativeSubscript => "Variable subscript must be non-negative"
  | .notInteger text =>
    "invalid literal for int() with base 10: " ++ String.ofList ((quoted text).toList.take 200)
  | .unknownConstant text => "Unknown constant: " ++ quoted text
  | .malformedCall function expected =>
    function ++ " takes " ++ toString expected ++ " arguments"
  | .misapplied function expected found =>
    function ++ " expects " ++ toString expected ++ " arguments, got " ++ toString found
  | .unknownOperation _ | .outOfRange | .overflow => ""

end Failure

end SymbolicAlgebra
