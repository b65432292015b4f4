/-
  Names of variables
  ==================
  The variables of an expression as a sorted list without repetition, the order in
  which they are reported and in which the columns of sample points stand.
  **`mem_names`**: no variable is lost, and none is added.
-/
import SymbolicAlgebra.Node.Predicate
import SymbolicAlgebra.StableSort

namespace SymbolicAlgebra

/-- Names in ascending order, each of them once. -/
def ascendingNames (names : List String) : List String :=
  StableSort.sorted (fun a b => decide (a < b)) names.eraseDups

theorem mem_ascendingNames {name : String} {names : List String} :
    name ∈ ascendingNames names ↔ name ∈ names := by
  rw [ascendingNames, (StableSort.sorted_perm _ _).mem_iff, List.mem_eraseDups]

namespace Node

variable {α : Type} [Scalar α]

/-- The names of the variables of an expression. -/
def names (n : Node α) : List String := ascendingNames n.«variables»

theorem mem_names {name : String} {n : Node α} : name ∈ n.names ↔ name ∈ n.«variables» :=
  mem_ascendingNames

end Node

end SymbolicAlgebra
