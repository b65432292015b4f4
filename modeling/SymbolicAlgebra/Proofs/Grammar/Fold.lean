/-
  The tree of a derivation
  ========================
  Reading the postorder of a phrase with a stack of nodes folds the phrase: the stack
  is never too short, nothing but the node of the phrase is left on it, and every
  symbol has an operation (`Phrase.toNode_postorder`). What remains to fail is the
  arithmetic of the nodes themselves (`Phrase.fails_node`).
-/
import SymbolicAlgebra.Proofs.Algebra.Overflow
import SymbolicAlgebra.Proofs.Grammar.Operand
import SymbolicAlgebra.Proofs.Grammar.Phrase

namespace SymbolicAlgebra

variable {α : Type} [Scalar α] {table : BracketTable}

/-! ### One symbol on the stack -/

namespace Postfix

theorem reduceStack_operand {s : Symbol} (known : s.isOperand = true) (stack : List (Node α)) :
    reduceStack stack s = (do return (← s.toOperand) :: stack) := by
  unfold reduceStack
  rw [if_pos known]

theorem reduceStack_unary {s : Symbol} {f : Unary} (named : s.function? = some (.unary f))
    (x : Node α) (stack : List (Node α)) :
    reduceStack (x :: stack) s = pure (.unary f x :: stack) := by
  unfold reduceStack
  rw [if_neg (by simp [Symbol.isOperand_of_function? named]), named]
  rfl

theorem reduceStack_binary {s : Symbol} {f : Binary} (named : s.function? = some (.binary f))
    (x y : Node α) (stack : List (Node α)) :
    reduceStack (y :: x :: stack) s = pure (.binary f x y :: stack) := by
  unfold reduceStack
  rw [if_neg (by simp [Symbol.isOperand_of_function? named]), named]
  rfl

theorem reduceStack_bang (x : Node α) (stack : List (Node α)) :
    reduceStack (x :: stack) .bang = pure (.unary .factorial x :: stack) := rfl

theorem reduceStack_negation (x : Node α) (stack : List (Node α)) :
    reduceStack (x :: stack) .negation = pure (x.negate :: stack) := rfl

/-- The node of an infix sign with two operands. -/
def applySign (g : Sign) (x y : Node α) : Checked (Node α) :=
  match g with
  | .plus => x.add y
  | .minus => x.subtract y
  | .product g => g.apply x y
  | .power => pure (x.raise y)

theorem reduceStack_sign (g : Sign) (x y : Node α) (stack : List (Node α)) :
    reduceStack (y :: x :: stack) g.symbol = (do return (← applySign g x y) :: stack) := by
  rcases g with _ | _ | ⟨_ | _ | _ | _⟩ | _ <;> rfl

end Postfix

/-! ### A phrase on the stack -/

namespace Phrase

/-- Reading the postorder of a phrase puts its node on the stack. -/
theorem foldlM_postorder {level : Level} (p : Phrase table level) (stack : List (Node α)) :
    p.postorder.foldlM Postfix.reduceStack stack = (do return (← p.node α) :: stack) := by
  induction p generalizing stack with
  | operand s known =>
    rw [postorder, node, List.foldlM_cons, Postfix.reduceStack_operand known]
    simp
  | factorial x ih =>
    simp [postorder, node, ih, Postfix.reduceStack_bang]
  | bracketed b x ih =>
    rw [postorder, node, ih]
  | unaryCall s f named b x ih =>
    simp [postorder, node, ih, Postfix.reduceStack_unary named]
  | binaryCall s f named b x y ihx ihy =>
    simp [postorder, node, ihx, ihy, Postfix.reduceStack_binary named]
  | ofPrimary x ih =>
    rw [postorder, node, ih]
  | negated x ih =>
    simp [postorder, node, ih, Postfix.reduceStack_negation]
  | ofUnary x ih =>
    rw [postorder, node, ih]
  | raised x y ihx ihy =>
    simp [postorder, node, ihx, ihy, Postfix.reduceStack_sign, Postfix.applySign]
  | ofPower x ih =>
    rw [postorder, node, ih]
  | scaled x g y ihx ihy =>
    simp [postorder, node, ihx, ihy, Postfix.reduceStack_sign, Postfix.applySign]
  | ofProduct x ih =>
    rw [postorder, node, ih]
  | minus x y ihx ihy =>
    simp [postorder, node, ihx, ihy, Postfix.reduceStack_sign, Postfix.applySign]
  | ofDifference x ih =>
    rw [postorder, node, ih]
  | plus x y ihx ihy =>
    simp [postorder, node, ihx, ihy, Postfix.reduceStack_sign, Postfix.applySign]

/-- The tree of the postorder of a phrase is the fold of the phrase. -/
theorem toNode_postorder {level : Level} (p : Phrase table level) :
    Postfix.toNode p.postorder = p.node α := by
  rw [Postfix.toNode, foldlM_postorder]
  cases p.node α <;> rfl

theorem fails_apply (g : ProductSign) (x y : Node α) : FailsByScaling α (g.apply x y) := by
  cases g with
  | times => exact Node.fails_multiply x y
  | juxtaposed => exact Node.fails_multiply x y
  | remainder => exact .ok _
  | divided => exact Node.fails_divide x y

/-- The fold of a phrase fails by a fraction that cannot be scaled only: every operand and every
operation has a node. -/
theorem scales_node {level : Level} (p : Phrase table level)
    (single : ∀ s ∈ p.symbols, '\n' ∉ s.text.toList) : FailsByScaling α (p.node α) := by
  induction p with
  | operand s known =>
    obtain ⟨n, read⟩ := Symbol.toOperand_ok (α := α) known (single s (by simp [symbols]))
    rw [node, read]
    exact .ok n
  | factorial x ih =>
    refine (ih fun s hs => single s ?_).bind fun _ => .ok _
    simp [symbols, hs]
  | bracketed b x ih =>
    refine ih fun s hs => single s ?_
    simp [symbols, hs]
  | unaryCall s f named b x ih =>
    refine (ih fun s hs => single s ?_).bind fun _ => .ok _
    simp [symbols, hs]
  | binaryCall s f named b x y ihx ihy =>
    refine (ihx fun s hs => single s ?_).bind fun _ => (ihy fun s hs => single s ?_).bind
      fun _ => .ok _
    · simp [symbols, hs]
    · simp [symbols, hs]
  | ofPrimary x ih => exact ih single
  | negated x ih =>
    refine (ih fun s hs => single s ?_).bind fun _ => .ok _
    simp [symbols, hs]
  | ofUnary x ih => exact ih single
  | raised x y ihx ihy =>
    refine (ihx fun s hs => single s ?_).bind fun _ => (ihy fun s hs => single s ?_).bind
      fun _ => .ok _
    · simp [symbols, hs]
    · simp [symbols, hs]
  | ofPower x ih => exact ih single
  | scaled x g y ihx ihy =>
    refine (ihx fun s hs => single s ?_).bind fun _ => (ihy fun s hs => single s ?_).bind
      fun _ => fails_apply g _ _
    · simp [symbols, hs]
    · simp [symbols, hs]
  | ofProduct x ih => exact ih single
  | minus x y ihx ihy =>
    refine (ihx fun s hs => single s ?_).bind fun _ => (ihy fun s hs => single s ?_).bind
      fun _ => Node.fails_subtract _ _
    · simp [symbols, hs]
    · simp [symbols, hs]
  | ofDifference x ih => exact ih single
  | plus x y ihx ihy =>
    refine (ihx fun s hs => single s ?_).bind fun _ => (ihy fun s hs => single s ?_).bind
      fun _ => Node.fails_add _ _
    · simp [symbols, hs]
    · simp [symbols, hs]

/-- The fold of a phrase fails by overflow only. -/
theorem fails_node {level : Level} (p : Phrase table level)
    (single : ∀ s ∈ p.symbols, '\n' ∉ s.text.toList) : FailsByOverflow (p.node α) :=
  (p.scales_node single).overflows

end Phrase

end SymbolicAlgebra
