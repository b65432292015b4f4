/-
  Switches
  ========
  Sorting the words of a command line into switches and operands. A switch is
  written `--name`, and some also `-x` with their letter; a value follows as the next
  word, after an equals sign, or right behind the letter. The word `--` ends the
  switches; whatever follows it is an operand.
-/
namespace SymbolicAlgebra.CommandLine

/-- A switch: its name, its letter if it has one, and whether a value follows it. -/
structure Switch where
  name : String
  letter : Option Char
  takesValue : Bool
deriving DecidableEq, Repr

/-- A switch that was found, with its value; the value is empty for a switch without one. -/
structure Setting where
  name : String
  value : String
deriving DecidableEq, Repr

/-- What a word is. -/
inductive Word where
  | operand
  | terminator
  | switches (settings : List Setting)
  /-- Switches of which the last one waits for its value. -/
  | awaiting (settings : List Setting) (name : String)
  | unknown
deriving DecidableEq, Repr

/-- Reads a word without its two dashes. -/
def readName (switches : List Switch) (cs : List Char) : Word :=
  let name := String.ofList (cs.takeWhile (· != '='))
  match switches.find? (·.name == name), cs.dropWhile (· != '=') with
  | some s, [] => if s.takesValue then .awaiting [] s.name else .switches [⟨s.name, ""⟩]
  | some s, _ :: value =>
    if s.takesValue then .switches [⟨s.name, String.ofList value⟩] else .unknown
  | none, _ => .unknown

/-- Reads a word of letters without its dash. The letters behind one that takes a value are
the value. -/
def readLetters (switches : List Switch) : List Char → Word
  | [] => .switches []
  | c :: cs =>
    match switches.find? (·.letter == some c) with
    | none => .unknown
    | some s =>
      if s.takesValue then
        if cs.isEmpty then .awaiting [] s.name
        else .switches [⟨s.name, String.ofList cs⟩]
      else
        match readLetters switches cs with
        | .switches settings => .switches (⟨s.name, ""⟩ :: settings)
        | .awaiting settings name => .awaiting (⟨s.name, ""⟩ :: settings) name
        | word => word

/-- Reads a word. A single dash is an operand. -/
def readWord (switches : List Switch) (word : String) : Word :=
  match word.toList with
  | ['-', '-'] => .terminator
  | '-' :: '-' :: name => readName switches name
  | '-' :: c :: letters => readLetters switches (c :: letters)
  | _ => .operand

/-- The words of a command line: switches and operands, each in their order. -/
structure Arguments where
  settings : List Setting
  operands : List String
deriving DecidableEq, Repr

namespace Arguments

/-- The arguments with more switches in front. -/
def withSettings (settings : List Setting) (a : Arguments) : Arguments :=
  { a with settings := settings ++ a.settings }

/-- The arguments with one more operand in front. -/
def withOperand (word : String) (a : Arguments) : Arguments :=
  { a with operands := word :: a.operands }

/-- Sorts words. Switches may stand behind operands if they are mixed; otherwise the first
operand ends them. None if a switch is unknown or lacks its value. -/
def ofWords? (switches : List Switch) (mixed : Bool) : List String → Option Arguments
  | [] => some ⟨[], []⟩
  | word :: words =>
    match readWord switches word with
    | .operand =>
      if mixed then (ofWords? switches mixed words).map (withOperand word)
      else some ⟨[], word :: words⟩
    | .terminator => some ⟨[], words⟩
    | .switches settings => (ofWords? switches mixed words).map (withSettings settings)
    | .awaiting settings name =>
      match words with
      | [] => none
      | value :: words =>
        (ofWords? switches mixed words).map (withSettings (settings ++ [⟨name, value⟩]))
    | .unknown => none

/-- The values given to a switch. -/
def values (a : Arguments) (name : String) : List String :=
  (a.settings.filter (·.name == name)).map (·.value)

/-- The last value given to a switch. -/
def value? (a : Arguments) (name : String) : Option String := (a.values name).getLast?

/-- Whether a switch is given. -/
def has (a : Arguments) (name : String) : Bool := !(a.values name).isEmpty

end Arguments

example : Arguments.ofWords? [⟨"var", some 'v', true⟩] true ["x", "-vy=1", "--", "-z"]
    = some ⟨[⟨"var", "y=1"⟩], ["x", "-z"]⟩ := by decide

end SymbolicAlgebra.CommandLine
