/-
  The grammar of expressions
  ==========================
  A `Phrase` is a derivation of the precedence grammar

      sum         ::=  difference  |  sum + difference
      difference  ::=  product  |  difference - product
      product     ::=  power  |  product (* # % /) power
      power       ::=  unary  |  unary ^ power
      unary       ::=  primary  |  ~ unary
      primary     ::=  operand  |  primary !  |  open sum close
                    |  function open sum close  |  function open sum , sum close

  with one constructor for each production. A function has one argument or two, so
  the two productions for calls are all there is. An operand, a function name and a
  pair of brackets carry the proof that they are what they claim to be, so every
  phrase is a derivation.

  A phrase has the symbols it derives, its symbols in postorder, and a node: the
  recursive fold of the derivation with the operations of nodes.
-/
import SymbolicAlgebra.Proofs.Grammar.SymbolClass
import SymbolicAlgebra.Infix.Tree

namespace SymbolicAlgebra

/-- The nonterminals of the grammar, the loosest first. -/
inductive Level where
  | sum
  | difference
  | product
  | power
  | unary
  | primary
deriving DecidableEq, Repr

/-- The derivations of the grammar. -/
inductive Phrase (table : BracketTable) : Level → Type
  | operand (s : Symbol) (known : s.isOperand = true) : Phrase table .primary
  | factorial (x : Phrase table .primary) : Phrase table .primary
  | bracketed (b : BracketPair table) (x : Phrase table .sum) : Phrase table .primary
  | unaryCall (s : Symbol) (f : Unary) (named : s.function? = some (.unary f))
      (b : BracketPair table) (x : Phrase table .sum) : Phrase table .primary
  | binaryCall (s : Symbol) (f : Binary) (named : s.function? = some (.binary f))
      (b : BracketPair table) (x y : Phrase table .sum) : Phrase table .primary
  | ofPrimary (x : Phrase table .primary) : Phrase table .unary
  | negated (x : Phrase table .unary) : Phrase table .unary
  | ofUnary (x : Phrase table .unary) : Phrase table .power
  | raised (x : Phrase table .unary) (y : Phrase table .power) : Phrase table .power
  | ofPower (x : Phrase table .power) : Phrase table .product
  | scaled (x : Phrase table .product) (g : ProductSign) (y : Phrase table .power) :
      Phrase table .product
  | ofProduct (x : Phrase table .product) : Phrase table .difference
  | minus (x : Phrase table .difference) (y : Phrase table .product) : Phrase table .difference
  | ofDifference (x : Phrase table .difference) : Phrase table .sum
  | plus (x : Phrase table .sum) (y : Phrase table .difference) : Phrase table .sum

/-- The node of a product sign with two operands. -/
def ProductSign.apply {α : Type} [Scalar α] (g : ProductSign) (x y : Node α) : Checked (Node α) :=
  match g with
  | times | juxtaposed => x.multiply y
  | remainder => .ok (.binary .remainder x y)
  | divided => x.divide y

namespace Phrase

variable {table : BracketTable} {level : Level}

/-- The symbols that the phrase derives. -/
def symbols {level : Level} : Phrase table level → List Symbol
  | operand s _ => [s]
  | factorial x => x.symbols ++ [.bang]
  | bracketed b x => b.opening :: x.symbols ++ [b.closing]
  | unaryCall s _ _ b x => s :: b.opening :: x.symbols ++ [b.closing]
  | binaryCall s _ _ b x y =>
    s :: b.opening :: x.symbols ++ Symbol.comma :: y.symbols ++ [b.closing]
  | ofPrimary x => x.symbols
  | negated x => .negation :: x.symbols
  | ofUnary x => x.symbols
  | raised x y => x.symbols ++ Sign.power.symbol :: y.symbols
  | ofPower x => x.symbols
  | scaled x g y => x.symbols ++ (Sign.product g).symbol :: y.symbols
  | ofProduct x => x.symbols
  | minus x y => x.symbols ++ Sign.minus.symbol :: y.symbols
  | ofDifference x => x.symbols
  | plus x y => x.symbols ++ Sign.plus.symbol :: y.symbols

/-- The operands, functions and operators of the phrase, every one behind its operands. -/
def postorder {level : Level} : Phrase table level → List Symbol
  | operand s _ => [s]
  | factorial x => x.postorder ++ [.bang]
  | bracketed _ x => x.postorder
  | unaryCall s _ _ _ x => x.postorder ++ [s]
  | binaryCall s _ _ _ x y => x.postorder ++ y.postorder ++ [s]
  | ofPrimary x => x.postorder
  | negated x => x.postorder ++ [.negation]
  | ofUnary x => x.postorder
  | raised x y => x.postorder ++ y.postorder ++ [Sign.power.symbol]
  | ofPower x => x.postorder
  | scaled x g y => x.postorder ++ y.postorder ++ [(Sign.product g).symbol]
  | ofProduct x => x.postorder
  | minus x y => x.postorder ++ y.postorder ++ [Sign.minus.symbol]
  | ofDifference x => x.postorder
  | plus x y => x.postorder ++ y.postorder ++ [Sign.plus.symbol]

/-- The node of the phrase: its operations carried out on nodes, from the left to the right. -/
def node (α : Type) [Scalar α] {level : Level} : Phrase table level → Checked (Node α)
  | operand s _ => s.toOperand
  | factorial x => return .unary .factorial (← x.node α)
  | bracketed _ x => x.node α
  | unaryCall _ f _ _ x => return .unary f (← x.node α)
  | binaryCall _ f _ _ x y => return .binary f (← x.node α) (← y.node α)
  | ofPrimary x => x.node α
  | negated x => return (← x.node α).negate
  | ofUnary x => x.node α
  | raised x y => return (← x.node α).raise (← y.node α)
  | ofPower x => x.node α
  | scaled x g y => do g.apply (← x.node α) (← y.node α)
  | ofProduct x => x.node α
  | minus x y => do (← x.node α).subtract (← y.node α)
  | ofDifference x => x.node α
  | plus x y => do (← x.node α).add (← y.node α)

/-- The phrase with further negation marks in front. -/
def negatedTimes (x : Phrase table .unary) : Nat → Phrase table .unary
  | 0 => x
  | n + 1 => (x.negatedTimes n).negated

/-- The power with further bases in front, the innermost first. -/
def raisedBy (y : Phrase table .power) (bases : List (Phrase table .unary)) : Phrase table .power :=
  bases.foldl (fun y x => .raised x y) y

theorem negatedTimes_succ (x : Phrase table .unary) (n : Nat) :
    x.negatedTimes (n + 1) = x.negated.negatedTimes n := by
  induction n with
  | zero => rfl
  | succ n ih => exact congrArg negated ih

theorem symbols_negatedTimes (x : Phrase table .unary) (n : Nat) :
    (x.negatedTimes n).symbols = List.replicate n .negation ++ x.symbols := by
  induction n with
  | zero => rfl
  | succ n ih =>
    rw [negatedTimes, symbols, ih]
    rfl

theorem postorder_negatedTimes (x : Phrase table .unary) (n : Nat) :
    (x.negatedTimes n).postorder = x.postorder ++ List.replicate n .negation := by
  induction n with
  | zero => simp [negatedTimes]
  | succ n ih =>
    rw [negatedTimes, postorder, ih, List.replicate_succ', List.append_assoc]

theorem symbols_raisedBy (y : Phrase table .power) (bases : List (Phrase table .unary)) :
    (y.raisedBy bases).symbols =
      (bases.reverse.flatMap fun x => x.symbols ++ [Sign.power.symbol]) ++ y.symbols := by
  induction bases generalizing y with
  | nil => rfl
  | cons x bases ih =>
    rw [raisedBy, List.foldl_cons, ← raisedBy, ih, symbols]
    simp

theorem postorder_raisedBy (y : Phrase table .power) (bases : List (Phrase table .unary)) :
    (y.raisedBy bases).postorder =
      (bases.reverse.flatMap postorder) ++ y.postorder
        ++ List.replicate bases.length Sign.power.symbol := by
  induction bases generalizing y with
  | nil => simp [raisedBy]
  | cons x bases ih =>
    rw [raisedBy, List.foldl_cons, ← raisedBy, ih, postorder, List.length_cons,
      List.replicate_succ]
    simp

end Phrase

end SymbolicAlgebra
