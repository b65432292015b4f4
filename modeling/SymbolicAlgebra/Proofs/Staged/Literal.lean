/-
  Texts with literal exponents
  ============================
  Where every exponent is a whole numeral, negated or not, the nodes that stand for the
  exponents are whole numbers (**`Postfix.top_whole`**), so the text is parsed to an upright
  expression and the values of two scopes can be put in one after the other:
  **`ParserSettings.evaluate_staged`**.
-/
import SymbolicAlgebra.Proofs.Staged.Substitution
import SymbolicAlgebra.Proofs.CarryOver.Parsing
import SymbolicAlgebra.Proofs.Value.Rational

namespace SymbolicAlgebra

variable {α : Type} [FieldScalar α] {C : Prop} {s t : Scope α}

namespace Postfix

/-- Whether the symbols end in a whole numeral, negated any number of times. -/
def endsWhole (α : Type) [Scalar α] (symbols : List Symbol) : Bool :=
  match symbols.reverse.dropWhile (·.text.toList == [Symbol.negationMark]) with
  | [] => false
  | s :: _ => (s.numeral?.map fun d => Scalar.isWhole (Scalar.ofDecimal d : α)).getD false

/-- The exponent of every power that the symbols write is a whole numeral, negated or not. -/
def LiteralPowers (α : Type) [Scalar α] (symbols : List Symbol) : Prop :=
  ∀ (i : Nat) (h : i < symbols.length), symbols[i].text.toList = ['^'] →
    endsWhole α (symbols.take i) = true

instance (α : Type) [Scalar α] (symbols : List Symbol) : Decidable (LiteralPowers α symbols) :=
  inferInstanceAs (Decidable (∀ (i : Nat) (_ : i < symbols.length), _ → _))

/-- Negating the whole number on top of the stack any number of times leaves a whole number. -/
theorem top_negated {symbols : List Symbol}
    (marks : ∀ s ∈ symbols, s.text.toList = [Symbol.negationMark]) {z : ℤ} {below stack : List (Node α)}
    (reached : symbols.foldlM reduceStack (.number (z : α) :: below) = .ok stack) :
    ∃ w : ℤ, stack = .number (w : α) :: below := by
  induction symbols generalizing z with
  | nil =>
    cases reached
    exact ⟨z, rfl⟩
  | cons s symbols ih =>
    obtain ⟨first, later⟩ := List.forall_mem_cons.1 marks
    obtain rfl : s = ⟨"~"⟩ := congrArg Symbol.mk (String.toList_injective first)
    have negated : reduceStack (.number (z : α) :: below) ⟨"~"⟩ =
        .ok (.number ((-z : ℤ) : α) :: below) := by
      rw [Int.cast_neg, ← FieldScalar.ofValue_eq (-(z : α))]
      rfl
    rw [List.foldlM_cons, negated] at reached
    exact ih later reached

variable [ExactScalar α]

/-- The node on top of the stack after a whole numeral, negated any number of times. -/
theorem top_whole {symbols : List Symbol} (whole : endsWhole α symbols = true) {n : Node α}
    {below : List (Node α)} (reached : symbols.foldlM reduceStack [] = .ok (n :: below)) :
    ∃ z : ℤ, n = .number (z : α) := by
  have split := List.takeWhile_append_dropWhile
    (p := (·.text.toList == [Symbol.negationMark])) (l := symbols.reverse)
  unfold endsWhole at whole
  split at whole
  · cases whole
  · rename_i numeral earlier shape
    rw [shape] at split
    have order : symbols = earlier.reverse ++ numeral ::
        (symbols.reverse.takeWhile (·.text.toList == [Symbol.negationMark])).reverse := by
      have := congrArg List.reverse split
      simpa using this.symm
    cases read : numeral.numeral? with
    | none =>
      rw [read] at whole
      cases whole
    | some d =>
      rw [read] at whole
      obtain ⟨z, cast⟩ := (ExactScalar.isWhole_iff _).1 whole
      rw [order, List.foldlM_append] at reached
      obtain ⟨stack, -, rest⟩ := bind_eq_ok.1 reached
      rw [List.foldlM_cons] at rest
      obtain ⟨next, step, last⟩ := bind_eq_ok.1 rest
      have operand : numeral.isOperand = true := by
        simp [Symbol.isOperand, Symbol.isNumber, read]
      have pushed : reduceStack stack numeral = .ok (.number (z : α) :: stack) := by
        have number : numeral.toOperand = .ok (.number (z : α)) := by
          rw [Symbol.toOperand, read, ← cast, ← FieldScalar.ofValue_eq]
        unfold reduceStack
        rw [if_pos operand, number]
        rfl
      rw [pushed] at step
      cases step
      have marks : ∀ s ∈ (symbols.reverse.takeWhile
          (·.text.toList == [Symbol.negationMark])).reverse,
          s.text.toList = [Symbol.negationMark] :=
        fun s hs => eq_of_beq (List.all_eq_true.1 List.all_takeWhile s (List.mem_reverse.1 hs))
      obtain ⟨w, top⟩ := top_negated marks last
      exact ⟨w, (List.cons.inj top).1⟩

/-- Texts with literal exponents write powers that may stand by themselves. -/
theorem LiteralPowers.raising {symbols : List Symbol} (literal : LiteralPowers α symbols) :
    Raising (fun p (n : Node α) => n.Upright C p) symbols := by
  intro before s after n below shape sign reached _
  subst shape
  have whole := literal before.length (by simp) (by simpa using sign)
  rw [List.take_left] at whole
  obtain ⟨z, rfl⟩ := top_whole whole reached
  exact Node.upright_exponent.2 ⟨z, rfl⟩

end Postfix

open Postfix

/-- An expression parsed from a text with literal exponents comes to one number, whether the
values of two scopes are put in one after the other or together. -/
theorem ParserSettings.evaluate_staged [ExactScalar α] {settings : ParserSettings} {text : String}
    {symbols postfixed : List Symbol} {n : Node α} (lexed : settings.symbols text = .ok symbols)
    (converted : ofInfix settings.brackets settings.maxDepth symbols = .ok postfixed)
    (literal : LiteralPowers α postfixed) (parsed : settings.parse text = .ok n)
    (constants : ∀ symbol ∈ symbols, symbol.isConstant = true →
      (s.union t).collapseConstants = true)
    (bound : ∀ name ∈ n.«variables», ∃ x, (s.union t).get name = .ok (some x))
    (nonsingular : n.Nonsingular (s.union t)) :
    ∃ m x, n.evaluate (some s) = .ok m ∧ m.evaluate (some t) = .ok (.number x) ∧
      n.evaluate (some (s.union t)) = .ok (.number x) := by
  have upright : n.Upright ((s.union t).collapseConstants = true) .alone := by
    refine carry_parse (Q := fun p n => n.Upright ((s.union t).collapseConstants = true) p)
      (fun v _ => .var _ v false) ?_ ?_ n parsed
    · intro symbols' postfixed' lexed' converted'
      rw [lexed] at lexed'
      cases lexed'
      rw [converted] at converted'
      cases converted'
      exact literal.raising
    · intro symbols' postfixed' lexed' converted' symbol written c named
      rw [lexed] at lexed'
      cases lexed'
      have member := all_ofInfix (R := (· ∈ symbols)) (fun _ h => h) postfixed' converted' symbol written
      refine .constant _ c false (constants symbol member ?_)
      rw [Symbol.isConstant, named]
      rfl
  have admitted := upright.admitted bound nonsingular
  obtain ⟨m, first, left, same⟩ := upright.splits admitted
  refine ⟨m, n.value (s.union t), first, ?_, Node.evaluate_eq admitted⟩
  rw [Node.evaluate_eq left, same]

/-- The value of `x` first and the one of `y` in the sum that is left, or both together. -/
theorem ParserSettings.evaluate_staged_sum :
    let settings : ParserSettings := {}
    let s : Scope ℚ := { values := [("x", 2)] }
    let t : Scope ℚ := { values := [("y", 3)] }
    let symbols : List Symbol := ["x", "*", "(", "x", "+", "y", ")", "^", "(", "~", "2",
      ")"].map Symbol.mk
    let postfixed : List Symbol := ["x", "x", "y", "+", "2", "~", "^", "*"].map Symbol.mk
    let x : Factor (Node ℚ) := ⟨.var ⟨'x', 0⟩ false, .number 1⟩
    let y : Factor (Node ℚ) := ⟨.var ⟨'y', 0⟩ false, .number 1⟩
    let base : Node ℚ := .sum [⟨1, 1, [x], [Factor.empty]⟩, ⟨1, 1, [y], [Factor.empty]⟩]
    let n : Node ℚ := .product ⟨1, 1, [x], [⟨base, .number 2⟩]⟩
    settings.symbols "x*(x+y)^(-2)" = .ok symbols ∧
      ofInfix settings.brackets settings.maxDepth symbols = .ok postfixed ∧
      LiteralPowers ℚ postfixed ∧ settings.parse "x*(x+y)^(-2)" = .ok n ∧
      (∀ symbol ∈ symbols, symbol.isConstant = true → (s.union t).collapseConstants = true) ∧
      (∀ name ∈ n.«variables», ∃ x, (s.union t).get name = .ok (some x)) ∧
      n.Nonsingular (s.union t) ∧
      ∃ m x, n.evaluate (some s) = .ok m ∧ m.evaluate (some t) = .ok (.number x) ∧
        n.evaluate (some (s.union t)) = .ok (.number x) := by
  intro settings s t symbols postfixed x y base n
  have lexed : settings.symbols "x*(x+y)^(-2)" = .ok symbols := by decide +kernel
  have converted : ofInfix settings.brackets settings.maxDepth symbols = .ok postfixed := by
    decide +kernel
  have literal : LiteralPowers ℚ postfixed := by decide +kernel
  have parsed : settings.parse "x*(x+y)^(-2)" = .ok n := by
    unfold parse
    rw [lexed]
    show (do
      let postfixed ← ofInfix settings.brackets settings.maxDepth symbols
      return (← toNode postfixed).reduce) = _
    rw [converted]
    with_unfolding_all rfl
  have constants : ∀ symbol ∈ symbols, symbol.isConstant = true →
      (s.union t).collapseConstants = true := by decide +kernel
  have bound : ∀ name ∈ n.«variables», ∃ x, (s.union t).get name = .ok (some x) := by
    have names : n.«variables» = ["x", "x", "y"] := by decide +kernel
    rw [names]
    intro name member
    simp only [List.mem_cons, List.not_mem_nil, or_false] at member
    rcases member with rfl | rfl | rfl
    · exact ⟨2, by decide +kernel⟩
    · exact ⟨2, by decide +kernel⟩
    · exact ⟨3, by decide +kernel⟩
  have nonsingular : n.Nonsingular (s.union t) := by
    have positive : ∀ {b : Node ℚ} {e : ℚ}, 0 ≤ Scalar.toInt e → b.Nonsingular (s.union t) →
        (Node.power ⟨b, .number e⟩).Nonsingular (s.union t) :=
      fun order base => .power _ base (.number _) fun _ => order
    have empty : (Node.power Factor.empty).Nonsingular (s.union t) :=
      positive (by decide +kernel) (.number 1)
    have term : ∀ v, (Node.product ⟨1, 1, [⟨.var v false, .number 1⟩], [Factor.empty]⟩).Nonsingular
        (s.union t) := by
      intro v
      refine .product _ one_ne_zero (List.forall_mem_singleton.2 ?_)
        (List.forall_mem_singleton.2 empty) (List.forall_mem_singleton.2 (by decide +kernel))
      exact positive (by decide +kernel) (.var v false)
    have sum : base.Nonsingular (s.union t) :=
      .sum _ (List.forall_mem_cons.2 ⟨term _, List.forall_mem_singleton.2 (term _)⟩)
    exact .product _ (by decide)
      (List.forall_mem_singleton.2 (positive (by decide +kernel) (.var _ false)))
      (List.forall_mem_singleton.2 (positive (by decide +kernel) sum)) (by decide +kernel)
  exact ⟨lexed, converted, literal, parsed, constants, bound, nonsingular,
    evaluate_staged lexed converted literal parsed constants bound nonsingular⟩

end SymbolicAlgebra
