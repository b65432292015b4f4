/-
  Invocations
  ===========
  What a command line asks for: the settings of the parser and one command with its
  operands and switches.
-/
import SymbolicAlgebra.CommandLine.Switch
import SymbolicAlgebra.Infix.Parser

namespace SymbolicAlgebra.CommandLine

/-- A command. -/
inductive Command where
  /-- Shows an expression in its canonical form, also as an outline. -/
  | parse (text : String) (outlined : Bool)
  /-- Merges like terms and reduces fractions. -/
  | simplify (text : String)
  /-- Multiplies out products of sums and may check the result numerically. -/
  | expand (text : String) (checked : Bool)
  /-- Puts values in for variables, and for constants if asked to. -/
  | evaluate (text : String) (assignments : List String) (constants : Bool)
  /-- Compares two expressions at sample points. -/
  | compare (left right : String) (samples : Nat) (seed : Option Int)
  /-- Lists the functions. -/
  | functions
deriving DecidableEq, Repr

/-- A command under settings. -/
structure Invocation where
  settings : ParserSettings
  command : Command
deriving DecidableEq, Repr

/-- How many sample points are compared unless another number is asked for. -/
def defaultSamples : Nat := 16

/-- The value of a switch that takes a whole number: nothing if it is not given. None if the
value is no whole number. -/
def integerValue? (a : Arguments) (name : String) : Option (Option Int) :=
  match a.value? name with
  | none => some none
  | some text => (Decimal.integer? text).map some

/-- The switches in front of the command. -/
def generalSwitches : List Switch :=
  [⟨"brackets", none, true⟩, ⟨"max-depth", none, true⟩, ⟨"verbose", none, false⟩]

/-- The settings that the switches in front of the command make. -/
def settingsOf? (a : Arguments) : Option ParserSettings := do
  let depth ← integerValue? a "max-depth"
  return ⟨((a.value? "brackets").map String.toList).getD BracketTable.round, depth⟩

namespace Command

/-- The switches of a command; none for a word that is no command. -/
def switches? (name : String) : Option (List Switch) :=
  match name with
  | "parse" => some [⟨"tree", none, false⟩]
  | "simplify" => some []
  | "expand" => some [⟨"check", none, false⟩]
  | "evaluate" => some [⟨"var", some 'v', true⟩, ⟨"constants", none, false⟩]
  | "compare" => some [⟨"samples", none, true⟩, ⟨"seed", none, true⟩]
  | "functions" => some []
  | _ => none

/-- The command of a name and its arguments. -/
def ofArguments? (name : String) (a : Arguments) : Option Command :=
  match name, a.operands with
  | "parse", [text] => some (.parse text (a.has "tree"))
  | "simplify", [text] => some (.simplify text)
  | "expand", [text] => some (.expand text (a.has "check"))
  | "evaluate", [text] => some (.evaluate text (a.values "var") (a.has "constants"))
  | "compare", [left, right] => do
    let samples ← integerValue? a "samples"
    let seed ← integerValue? a "seed"
    return .compare left right ((samples.map Int.toNat).getD defaultSamples) seed
  | "functions", [] => some .functions
  | _, _ => none

end Command

/-- The invocation that the words of a command line write. -/
def Invocation.ofWords? (words : List String) : Option Invocation := do
  let general ← Arguments.ofWords? generalSwitches false words
  let settings ← settingsOf? general
  match general.operands with
  | [] => none
  | name :: words =>
    let own ← Arguments.ofWords? (← Command.switches? name) true words
    return ⟨settings, ← Command.ofArguments? name own⟩

end SymbolicAlgebra.CommandLine
