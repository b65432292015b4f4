/-
  Outcomes
  ========
  What a command prints and the code it exits with: zero when all is well, one for a
  failure and for a check or a comparison that comes out negative, two for a command
  line that cannot be read.
-/
import SymbolicAlgebra.CommandLine.Invocation
import SymbolicAlgebra.Display.Panel
import SymbolicAlgebra.Display.Table
import SymbolicAlgebra.Equivalence
import SymbolicAlgebra.Statement

namespace SymbolicAlgebra.CommandLine

open SymbolicAlgebra.Display

/-- Printed lines and an exit code. -/
structure Outcome where
  exitCode : Nat
  lines : List String
deriving DecidableEq, Repr

/-- The printed text. -/
def Outcome.output (o : Outcome) : String := String.join (o.lines.map (· ++ "\n"))

/-- Chooses sample points: from a seed, if one is given, a number of points with a number of
coordinates each. -/
abbrev Sampler := Option Int → Nat → Nat → List (List Float)

/-- The outcome of a failure. -/
def failed (f : Failure) : Outcome :=
  ⟨1, (f.report?.map fun r => r.kind ++ ": " ++ r.message).toList⟩

/-- The line that shows a result. -/
def resultLine (title : String) (s : Statement) : Checked String :=
  return title ++ ": " ++ (← s.toText)

/-- Reads a statement, transforms its expressions and shows the result. -/
def transformed (title : String) (settings : ParserSettings) (text : String)
    (f : Node Float → Checked (Node Float)) : Checked Outcome := do
  let result ← (← Statement.read settings text).mapM f
  return ⟨0, [← resultLine title result]⟩

/-- Shows a statement and, if asked to, the outline of its expressions. -/
def showParsed (settings : ParserSettings) (text : String) (outlined : Bool) :
    Checked Outcome := do
  let s ← Statement.read settings text
  let outlines := if outlined then
    s.sides.flatMap fun n => panel "Expression tree" n.outline.lines else []
  return ⟨0, (← resultLine "Parsed" s) :: outlines⟩

/-- The expression simplified and reduced. -/
def tidied (n : Node Float) : Checked (Node Float) := return (← n.simplify).reduce

/-- The comparison of two expressions at chosen points. -/
def sampled (sample : Sampler) (seed : Option Int) (samples : Nat) (left right : Node Float) :
    Checked Comparison :=
  Comparison.of left right (sample seed samples (Comparison.namesOf left right).length) .standard

/-- The verdict on an expansion. -/
def verdict (sample : Sampler) (before after : Node Float) : Checked Outcome := do
  if (← sampled sample none defaultSamples before after).isEquivalent then
    return ⟨0, ["Check passed"]⟩
  else return ⟨1, ["Check failed: expansion differs from input"]⟩

/-- Expands a statement; the expansion of an expression can be checked. -/
def showExpanded (sample : Sampler) (settings : ParserSettings) (text : String) (checked : Bool) :
    Checked Outcome := do
  let s ← Statement.read settings text
  let expanded ← s.mapM fun n => do tidied (← n.expand)
  let line ← resultLine "Expanded" expanded
  match checked, s, expanded with
  | true, .expression before, .expression after =>
    let checked ← verdict sample before after
    return { checked with lines := line :: checked.lines }
  | _, _, _ => return ⟨0, [line]⟩

/-- Evaluates a statement in the scope of some assignments. -/
def showEvaluated (settings : ParserSettings) (text : String) (assignments : List String)
    (constants : Bool) : Checked Outcome := do
  let scope ← Scope.ofAssignments Binary64.ofText? assignments constants
  transformed "Result" settings text fun n => return (← n.evaluate (some scope)).reduce

/-- At most so many sample points are listed. -/
def listedSamples : Nat := 8

/-- The places of the coordinates of a listed point. -/
def coordinatePlaces : Nat := 4

/-- The significant digits of a listed value. -/
def valueDigits : Nat := 6

/-- The table of a comparison. -/
def comparisonTable (c : Comparison) : Table :=
  { title := "Samples (" ++ toString c.mismatches ++ " of " ++ toString c.samples.length
      ++ " differ)"
    columns := (c.«variables» ++ ["left", "right"]).map (⟨·, .right⟩)
    rows := (c.samples.take listedSamples).map fun s =>
      s.point.map (Binary64.fixed coordinatePlaces)
        ++ [Binary64.significant valueDigits s.left, Binary64.significant valueDigits s.right] }

/-- Compares two expressions. -/
def showCompared (sample : Sampler) (settings : ParserSettings) (left right : String)
    (samples : Nat) (seed : Option Int) : Checked Outcome := do
  let settings ← settings.check
  let x ← settings.parse left
  let y ← settings.parse right
  let c ← sampled sample seed samples x y
  let word := if c.isEquivalent then "equivalent" else "different"
  return ⟨if c.isEquivalent then 0 else 1,
    (x.toText ++ "  vs  " ++ y.toText ++ ": " ++ word) :: (comparisonTable c).lines⟩

/-- The table of all functions that are called by name. -/
def functionTable : Table :=
  { title := "Functions"
    columns := [⟨"Name", .left⟩, ⟨"Arguments", .right⟩, ⟨"Description", .left⟩]
    rows := Function.registered.map fun f => [f.name, toString f.arity, f.description] }

/-- Carries out an invocation. -/
def Invocation.run (sample : Sampler) (i : Invocation) : Checked Outcome :=
  match i.command with
  | .parse text outlined => showParsed i.settings text outlined
  | .simplify text => transformed "Simplified" i.settings text tidied
  | .expand text checked => showExpanded sample i.settings text checked
  | .evaluate text assignments constants => showEvaluated i.settings text assignments constants
  | .compare left right samples seed => showCompared sample i.settings left right samples seed
  | .functions => .ok ⟨0, functionTable.lines⟩

/-- What is printed for a command line that cannot be read. -/
def usage : Outcome :=
  ⟨2, ["Usage: [--brackets PAIRS] [--max-depth DEPTH] [--verbose] COMMAND ...",
    "Commands: parse, simplify, expand, evaluate, compare, functions"]⟩

/-- The outcome of a command line. -/
def respond (sample : Sampler) (words : List String) : Outcome :=
  match Invocation.ofWords? words with
  | none => usage
  | some i =>
    match i.run sample with
    | .ok outcome => outcome
    | .error f => failed f

end SymbolicAlgebra.CommandLine
