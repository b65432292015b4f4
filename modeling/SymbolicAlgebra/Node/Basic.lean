/-
  Expression trees
  ================
  An expression is a tree of nodes. Its canonical shape is a sum of products:

      sum      =  term + term + …
      term     =  numerator / denominator · factor · … / (divisor · …)
      factor   =  base ^ exponent

  with numbers, constants, variables and function calls at the leaves. Terms and
  factors are structures of their own, so that a sum can hold nothing but terms and
  a term nothing but factors, and each of them is also a node.

  Trees are plain data: no invariant is built into the type. The functions that
  build terms (`Term.normal`) and sums (`Node.flattened`) establish the invariants.
-/
import SymbolicAlgebra.Function
import SymbolicAlgebra.Variable

namespace SymbolicAlgebra

/-- A base raised to an exponent. -/
structure Factor (ν : Type) where
  base : ν
  exponent : ν
deriving Repr

/-- A product in the shape of a fraction: `numerator / denominator` times the factors, over
the divisors. An empty product is written as the single factor `1 ^ 0`. -/
structure Term (α ν : Type) where
  numerator : α
  denominator : α
  factors : List (Factor ν)
  divisors : List (Factor ν)
deriving Repr

/-- An expression over scalars `α`. A constant and a variable carry their sign. -/
inductive Node (α : Type) where
  | number (value : α)
  | constant (name : Constant) (negative : Bool)
  | var (name : Variable) (negative : Bool)
  | power (factor : Factor (Node α))
  | product (term : Term α (Node α))
  | sum (terms : List (Term α (Node α)))
  | unary (f : Unary) (argument : Node α)
  | binary (f : Binary) (left right : Node α)
deriving Repr

namespace Node

/-- The constant written so. -/
def ofSymbol {α : Type} (symbol : String) (negative : Bool) : Checked (Node α) :=
  match Constant.ofSymbol? symbol with
  | some c => .ok (.constant c negative)
  | none => .error (.unknownConstant symbol)

/-- The call of a function, which must have as many arguments as it takes. -/
def call {α : Type} (f : Function) (arguments : List (Node α)) : Checked (Node α) :=
  match f, arguments with
  | .unary g, [x] => .ok (.unary g x)
  | .binary g, [x, y] => .ok (.binary g x y)
  | f, _ => .error (.malformedCall f.name f.arity)

/-- A variable or a constant without its sign. -/
def unsigned? {α : Type} : Node α → Option (Node α)
  | .constant c _ => some (.constant c false)
  | .var v _ => some (.var v false)
  | _ => none

/-- The nodes of a tree and everything in them, by the kinds of node a term can hold. -/
theorem induction {α : Type} {motive : Node α → Prop}
    (number : ∀ value, motive (.number value))
    (constant : ∀ name negative, motive (.constant name negative))
    (var : ∀ name negative, motive (.var name negative))
    (power : ∀ f : Factor (Node α), motive f.base → motive f.exponent → motive (.power f))
    (product : ∀ t : Term α (Node α), (∀ f ∈ t.factors, motive (.power f)) →
      (∀ f ∈ t.divisors, motive (.power f)) → motive (.product t))
    (sum : ∀ ts : List (Term α (Node α)), (∀ t ∈ ts, motive (.product t)) → motive (.sum ts))
    (unary : ∀ f x, motive x → motive (.unary f x))
    (binary : ∀ f x y, motive x → motive y → motive (.binary f x y))
    (n : Node α) : motive n := by
  refine Node.rec (motive_1 := motive) (motive_2 := fun f => motive (.power f))
    (motive_3 := fun t => motive (.product t)) (motive_4 := fun ts => ∀ t ∈ ts, motive (.product t))
    (motive_5 := fun fs => ∀ f ∈ fs, motive (.power f)) number constant var
    (fun f h => h) (fun t h => h) sum unary binary (fun b e hb he => power ⟨b, e⟩ hb he)
    (fun n d fs ds hf hd => product ⟨n, d, fs, ds⟩ hf hd) ?_ ?_ ?_ ?_ n
  · intro t ht
    cases ht
  · intro t ts first rest u hu
    rcases List.mem_cons.1 hu with rfl | hu
    · exact first
    · exact rest u hu
  · intro f hf
    cases hf
  · intro f fs first rest g hg
    rcases List.mem_cons.1 hg with rfl | hg
    · exact first
    · exact rest g hg

end Node

end SymbolicAlgebra
