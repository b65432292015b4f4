/-
  The number of a phrase
  ======================
  The direct stack evaluation of the postorder of a phrase folds the phrase with the
  operations on numbers: **`Phrase.direct_postorder`**.
-/
import SymbolicAlgebra.Proofs.Grammar.Phrase
import SymbolicAlgebra.Proofs.Value.Direct

namespace SymbolicAlgebra

variable {α : Type} [Scalar α] {table : BracketTable} {s : Scope α}

/-! ### One symbol on the stack -/

namespace Postfix

theorem directStep_operand {symbol : Symbol} (known : symbol.isOperand = true) (stack : List α) :
    directStep s stack symbol = (operandValue? s symbol).map (· :: stack) := by
  unfold directStep
  rw [if_pos known]

theorem directStep_unary {symbol : Symbol} {f : Unary} (named : symbol.function? = some (.unary f))
    (x : α) (stack : List α) :
    directStep s (x :: stack) symbol = some (Scalar.unary f x :: stack) := by
  unfold directStep
  rw [if_neg (by simp [Symbol.isOperand_of_function? named]), named]

theorem directStep_binary {symbol : Symbol} {f : Binary}
    (named : symbol.function? = some (.binary f)) (x y : α) (stack : List α) :
    directStep s (y :: x :: stack) symbol = some (Scalar.binary f x y :: stack) := by
  unfold directStep
  rw [if_neg (by simp [Symbol.isOperand_of_function? named]), named]

theorem directStep_sign (g : Sign) (x y : α) (stack : List α) :
    directStep s (y :: x :: stack) g.symbol = (binaryValue? g.symbol x y).map (· :: stack) := by
  rcases g with _ | _ | ⟨_ | _ | _ | _⟩ | _ <;> rfl

end Postfix

/-! ### A phrase on the stack -/

open Postfix

namespace Phrase

/-- The number of the phrase: its operations carried out on numbers. -/
def number? (s : Scope α) {level : Level} : Phrase table level → Option α
  | operand symbol _ => operandValue? s symbol
  | factorial x => (x.number? s).map (Scalar.unary .factorial)
  | bracketed _ x => x.number? s
  | unaryCall _ f _ _ x => (x.number? s).map (Scalar.unary f)
  | binaryCall _ f _ _ x y => do return Scalar.binary f (← x.number? s) (← y.number? s)
  | ofPrimary x => x.number? s
  | negated x => (x.number? s).map (- ·)
  | ofUnary x => x.number? s
  | raised x y => do binaryValue? Sign.power.symbol (← x.number? s) (← y.number? s)
  | ofPower x => x.number? s
  | scaled x g y => do binaryValue? (Sign.product g).symbol (← x.number? s) (← y.number? s)
  | ofProduct x => x.number? s
  | minus x y => do binaryValue? Sign.minus.symbol (← x.number? s) (← y.number? s)
  | ofDifference x => x.number? s
  | plus x y => do binaryValue? Sign.plus.symbol (← x.number? s) (← y.number? s)

/-- Symbols that put one number on the stack each, and a symbol that takes the two. -/
theorem foldlM_two {xs ys : List Symbol} {symbol : Symbol} {left right : Option α}
    {apply : α → α → Option α}
    (first : ∀ stack, xs.foldlM (directStep s) stack = left.map (· :: stack))
    (second : ∀ stack, ys.foldlM (directStep s) stack = right.map (· :: stack))
    (last : ∀ x y stack, directStep s (y :: x :: stack) symbol = (apply x y).map (· :: stack))
    (stack : List α) :
    (xs ++ ys ++ [symbol]).foldlM (directStep s) stack =
      (do apply (← left) (← right)).map (· :: stack) := by
  rw [List.foldlM_append, List.foldlM_append, first]
  cases left with
  | none => rfl
  | some x =>
    show (ys.foldlM (directStep s) (x :: stack) >>= _) = _
    rw [second]
    cases right with
    | none => rfl
    | some y =>
      show (directStep s (y :: x :: stack) symbol >>= pure) = _
      rw [bind_pure, last]
      rfl

/-- Reading the postorder of a phrase puts its number on the stack. -/
theorem foldlM_directStep {level : Level} (p : Phrase table level) (stack : List α) :
    p.postorder.foldlM (directStep s) stack = (p.number? s).map (· :: stack) := by
  induction p generalizing stack with
  | operand symbol known =>
    rw [postorder, number?, List.foldlM_cons, directStep_operand known]
    cases operandValue? s symbol <;> rfl
  | factorial x ih =>
    rw [postorder, number?, List.foldlM_append, ih]
    cases x.number? s <;> rfl
  | bracketed b x ih => rw [postorder, number?, ih]
  | unaryCall symbol f named b x ih =>
    rw [postorder, number?, List.foldlM_append, ih]
    cases x.number? s with
    | none => rfl
    | some v => exact congrArg (· >>= pure) (directStep_unary named v stack)
  | binaryCall symbol f named b x y ihx ihy =>
    exact foldlM_two ihx ihy (fun v w rest => directStep_binary named v w rest) stack
  | ofPrimary x ih => rw [postorder, number?, ih]
  | negated x ih =>
    rw [postorder, number?, List.foldlM_append, ih]
    cases x.number? s <;> rfl
  | ofUnary x ih => rw [postorder, number?, ih]
  | raised x y ihx ihy => exact foldlM_two ihx ihy (directStep_sign _) stack
  | ofPower x ih => rw [postorder, number?, ih]
  | scaled x g y ihx ihy => exact foldlM_two ihx ihy (directStep_sign _) stack
  | ofProduct x ih => rw [postorder, number?, ih]
  | minus x y ihx ihy => exact foldlM_two ihx ihy (directStep_sign _) stack
  | ofDifference x ih => rw [postorder, number?, ih]
  | plus x y ihx ihy => exact foldlM_two ihx ihy (directStep_sign _) stack

/-- The direct value of the postorder of a phrase is the number of the phrase. -/
theorem direct_postorder {level : Level} (p : Phrase table level) :
    direct s p.postorder = p.number? s := by
  rw [direct, foldlM_directStep]
  cases p.number? s <;> rfl

end Phrase

end SymbolicAlgebra
