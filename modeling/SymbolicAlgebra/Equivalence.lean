/-
  Numerical comparison
  ====================
  Two expressions compared by their values at sample points. They are judged
  equivalent when the values agree, up to a tolerance, at every point; an expression
  that has no value at a point is undefined there, and two undefined values agree.
-/
import SymbolicAlgebra.Node.Evaluate
import SymbolicAlgebra.Node.Names
import SymbolicAlgebra.Binary64.Arithmetic

namespace SymbolicAlgebra

/-- The values an expression takes when the variables are bound, point by point, to the
coordinates; undefined where it does not come down to a number. -/
def Node.values (n : Node Float) (names : List String) (points : List (List Float)) :
    Checked (List Float) :=
  points.mapM fun point => do
    let scope ← Scope.ofList (names.zip point) true
    (← n.evaluate (some scope)).toNumber

/-- How far two values may lie apart and still agree. -/
structure Tolerance where
  relative : Float
  absolute : Float

/-- The tolerance within which expressions are judged unless another one is asked for. -/
def Tolerance.standard : Tolerance := ⟨1e-7, 1e-9⟩

/-- Whether two values agree. The tolerance is relative to the second one. -/
def Tolerance.accepts (t : Tolerance) (x y : Float) : Bool :=
  (Float.abs (x - y) ≤ t.absolute + t.relative * Float.abs y && y.isFinite)
    || x == y || (x.isNaN && y.isNaN)

/-- The values of two expressions at one sample point. -/
structure Sample where
  point : List Float
  left : Float
  right : Float
  agrees : Bool

/-- The difference of the two values. -/
def Sample.difference (s : Sample) : Float := Float.abs (s.left - s.right)

/-- Two expressions at sample points. -/
structure Comparison where
  «variables» : List String
  samples : List Sample

namespace Comparison

/-- Whether the values agree at every sample point. -/
def isEquivalent (c : Comparison) : Bool := c.samples.all (·.agrees)

/-- At how many sample points the values differ. -/
def mismatches (c : Comparison) : Nat := c.samples.countP fun s => !s.agrees

/-- The greatest difference at the points where both values are finite. -/
def maxDifference (c : Comparison) : Float :=
  let finite := c.samples.filter fun s => s.left.isFinite && s.right.isFinite
  finite.foldl (fun most s => if most < s.difference then s.difference else most) 0

/-- The variables of two expressions. -/
def namesOf (left right : Node Float) : List String :=
  ascendingNames (left.«variables» ++ right.«variables»)

/-- Compares two expressions at points with one coordinate for each of their variables. -/
def of (left right : Node Float) (points : List (List Float)) (tolerance : Tolerance) :
    Checked Comparison := do
  let names := namesOf left right
  let lefts ← left.values names points
  let rights ← right.values names points
  let samples := (points.zip (lefts.zip rights)).map fun (point, x, y) =>
    { point := point, left := x, right := y, agrees := tolerance.accepts x y : Sample }
  return { «variables» := names, samples := samples }

end Comparison

end SymbolicAlgebra
