/-
  Measures of trees
  =================
  Three numbers that bound the recursions over expressions. The `height` counts
  every step down the tree, the `depth` only the steps into bases and arguments, and
  the `level` counts how often exponents other than plain numbers are nested.
-/
import SymbolicAlgebra.Node.Basic

namespace SymbolicAlgebra.Node

variable {α : Type}

mutual

/-- How many steps lead from the node to its deepest descendant. -/
def height : Node α → Nat
  | .power ⟨base, exponent⟩ => 1 + max base.height exponent.height
  | .product ⟨_, _, fs, gs⟩ => 1 + max (factorsHeight fs) (factorsHeight gs)
  | .sum ts => 1 + termsHeight ts
  | .unary _ x => 1 + x.height
  | .binary _ x y => 1 + max x.height y.height
  | _ => 0

/-- The greatest height of a base or an exponent. -/
def factorsHeight : List (Factor (Node α)) → Nat
  | [] => 0
  | ⟨base, exponent⟩ :: fs => max (max base.height exponent.height) (factorsHeight fs)

/-- The greatest height of a term. -/
def termsHeight : List (Term α (Node α)) → Nat
  | [] => 0
  | ⟨_, _, fs, gs⟩ :: ts => max (1 + max (factorsHeight fs) (factorsHeight gs)) (termsHeight ts)

end

mutual

/-- How many steps lead from the node to its deepest descendant outside all exponents. -/
def depth : Node α → Nat
  | .power ⟨base, _⟩ => 1 + base.depth
  | .product ⟨_, _, fs, gs⟩ => 1 + max (factorsDepth fs) (factorsDepth gs)
  | .sum ts => 1 + termsDepth ts
  | .unary _ x => 1 + x.depth
  | .binary _ x y => 1 + max x.depth y.depth
  | _ => 0

/-- The greatest depth of a base. -/
def factorsDepth : List (Factor (Node α)) → Nat
  | [] => 0
  | ⟨base, _⟩ :: fs => max base.depth (factorsDepth fs)

/-- The greatest depth of a term. -/
def termsDepth : List (Term α (Node α)) → Nat
  | [] => 0
  | ⟨_, _, fs, gs⟩ :: ts => max (1 + max (factorsDepth fs) (factorsDepth gs)) (termsDepth ts)

end

mutual

/-- How deep exponents other than plain numbers are nested in each other. -/
def level : Node α → Nat
  | .power ⟨base, .number _⟩ => base.level
  | .power ⟨base, exponent⟩ => max base.level (1 + exponent.level)
  | .product ⟨_, _, fs, gs⟩ => max (factorsLevel fs) (factorsLevel gs)
  | .sum ts => termsLevel ts
  | .unary _ x => x.level
  | .binary _ x y => max x.level y.level
  | _ => 0

/-- The greatest level of a factor. -/
def factorsLevel : List (Factor (Node α)) → Nat
  | [] => 0
  | ⟨base, .number _⟩ :: fs => max base.level (factorsLevel fs)
  | ⟨base, exponent⟩ :: fs => max (max base.level (1 + exponent.level)) (factorsLevel fs)

/-- The greatest level of a term. -/
def termsLevel : List (Term α (Node α)) → Nat
  | [] => 0
  | ⟨_, _, fs, gs⟩ :: ts => max (max (factorsLevel fs) (factorsLevel gs)) (termsLevel ts)

end

end SymbolicAlgebra.Node
