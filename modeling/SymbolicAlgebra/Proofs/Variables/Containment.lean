/-
  No operation adds a variable
  ============================
  Evaluating puts numbers in place of the variables that a scope binds and computes
  with what is left (**`Node.over_evaluate`**). Parsing makes a variable of nothing
  but a symbol that names one: the symbols in postfix order are symbols of the text,
  and the nodes on the stack come from symbols that were read.

  **`no_new_variables`** collects what holds of the variables that results report.
-/
import SymbolicAlgebra.Proofs.Value.Rational
import SymbolicAlgebra.Proofs.CarryOver.Evaluation
import SymbolicAlgebra.Proofs.CarryOver.Parsing
import SymbolicAlgebra.Proofs.Variables.Over

namespace SymbolicAlgebra

variable {α : Type} [Scalar α] {P : String → Prop}

/-! ### Operations -/

namespace Node

variable {m n : Node α}

theorem over_simplify (h : n.Over P) : Yields (Node.Over P) n.simplify :=
  carry_simplify (Q := fun _ => Over P) (p := .alone) h

theorem over_reduce (h : n.Over P) : n.reduce.Over P :=
  carry_reduce (Q := fun _ => Over P) (p := .alone) h

theorem over_expand (h : n.Over P) : Yields (Node.Over P) n.expand :=
  carry_expand (Q := fun _ => Over P) (p := .alone) h

theorem over_clone (h : n.Over P) : n.clone.Over P :=
  carry_clone (Q := fun _ => Over P) (p := .alone) h

theorem over_negate (h : n.Over P) : n.negate.Over P :=
  carry_negate (Q := fun _ => Over P) (p := .alone) (q := .alone) h

theorem over_add (hm : m.Over P) (hn : n.Over P) : Yields (Node.Over P) (m.add n) :=
  carry_add (Q := fun _ => Over P) (p := .alone) hm hn

theorem over_subtract (hm : m.Over P) (hn : n.Over P) : Yields (Node.Over P) (m.subtract n) :=
  carry_subtract (Q := fun _ => Over P) (p := .alone) hm hn

theorem over_multiply (hm : m.Over P) (hn : n.Over P) : Yields (Node.Over P) (m.multiply n) :=
  carry_multiply (Q := fun _ => Over P) (p := .alone) hm hn

theorem over_divide (hm : m.Over P) (hn : n.Over P) : Yields (Node.Over P) (m.divide n) :=
  carry_divide (Q := fun _ => Over P) (p := .alone) hm hn

/-! ### Evaluating -/

variable {s : Scope α}

theorem over_evaluatedVariable {v : Variable} (negative : Bool)
    (h : s.lookup v.name = none → P v.name) :
    Yields (Node.Over P) (evaluatedVariable (some s) v negative) := by
  intro n result
  obtain ⟨value, found, rest⟩ := bind_eq_ok.1 result
  cases value with
  | none =>
    cases rest
    exact over_var.2 (h (Scope.lookup_of_get found))
  | some x =>
    cases rest
    exact over_number _

/-- What is left after evaluation has the variables that the scope does not bind. -/
theorem over_evaluate (h : n.Over fun name => s.lookup name = none → P name) :
    Yields (Node.Over P) (n.evaluate (some s)) := by
  refine carry_evaluate (Q := fun _ => Over _) (R := fun _ => Over P) (p := .alone) ?_ ?_ ?_ h
  · intro _ c negative _
    unfold evaluatedConstant
    split
    · exact over_number _
    · exact over_constant c negative
  · exact fun var => over_evaluatedVariable _ (over_var.1 var)
  · exact fun _ value e result => Uniform.exponent.2 (value e result)

end Node

/-! ### Parsing -/

namespace Postfix

/-- Whether a variable that the symbol names has the property. -/
def Naming (P : String → Prop) (s : Symbol) : Prop :=
  ∀ v, s.isVariable = true → Variable.ofName? s.text = .ok v → P v.name

theorem over_toNode {symbols : List Symbol} (named : ∀ s ∈ symbols, Naming P s) :
    Yields (Node.Over P) (toNode symbols : Checked (Node α)) :=
  carry_tree (Q := fun _ => Node.Over P)
    (fun s hs => ⟨fun c _ => Node.over_constant c false,
      fun v isVariable read => Node.over_var.2 (named s hs v isVariable read)⟩)
    (raising_of_uniform symbols)

end Postfix

/-! ### The variables that results report -/

/-- Simplifying, reducing, expanding, rebuilding and negating add no variable; the four
operations of arithmetic have none but those of their operands; evaluation leaves those that the
scope does not bind; and a parsed expression has those that the symbols of its text name. -/
theorem no_new_variables (m n : Node α) :
    (∀ r, m.simplify = .ok r ∨ m.reduce = r ∨ m.expand = .ok r ∨ m.clone = r ∨ m.negate = r →
      ∀ name ∈ r.«variables», name ∈ m.«variables») ∧
    (∀ r, m.add n = .ok r ∨ m.subtract n = .ok r ∨ m.multiply n = .ok r ∨ m.divide n = .ok r →
      ∀ name ∈ r.«variables», name ∈ m.«variables» ∨ name ∈ n.«variables») ∧
    (∀ (s : Scope α) (r : Node α), m.evaluate (some s) = .ok r →
      ∀ name ∈ r.«variables», name ∈ m.«variables» ∧ s.lookup name = none) ∧
    ∀ (settings : ParserSettings) (text : String), settings.parse text = .ok m →
      ∃ symbols, settings.symbols text = .ok symbols ∧ ∀ name ∈ m.«variables», ∃ s ∈ symbols,
        s.isVariable = true ∧ ∃ v, Variable.ofName? s.text = .ok v ∧ v.name = name := by
  have own : m.Over (· ∈ m.«variables») := fun name reported => reported
  refine ⟨?_, ?_, ?_, ?_⟩
  · rintro r (result | rfl | result | rfl | rfl)
    · exact Node.over_simplify own r result
    · exact Node.over_reduce own
    · exact Node.over_expand own r result
    · exact Node.over_clone own
    · exact Node.over_negate own
  · have left : m.Over fun name => name ∈ m.«variables» ∨ name ∈ n.«variables» :=
      fun name reported => .inl reported
    have right : n.Over fun name => name ∈ m.«variables» ∨ name ∈ n.«variables» :=
      fun name reported => .inr reported
    rintro r (result | result | result | result)
    · exact Node.over_add left right r result
    · exact Node.over_subtract left right r result
    · exact Node.over_multiply left right r result
    · exact Node.over_divide left right r result
  · intro s r result
    have unbound : m.Over fun name =>
        s.lookup name = none → name ∈ m.«variables» ∧ s.lookup name = none :=
      fun name reported free => ⟨reported, free⟩
    exact Node.over_evaluate unbound r result
  · intro settings text result
    obtain ⟨symbols, listed, rest⟩ := bind_eq_ok.1 result
    obtain ⟨postfixed, ordered, rest⟩ := bind_eq_ok.1 rest
    obtain ⟨tree, built, rest⟩ := bind_eq_ok.1 rest
    cases rest
    refine ⟨symbols, listed, ?_⟩
    have named : ∀ s ∈ postfixed, Postfix.Naming (fun name => ∃ s ∈ symbols,
        s.isVariable = true ∧ ∃ v, Variable.ofName? s.text = .ok v ∧ v.name = name) s := by
      refine Postfix.all_ofInfix (fun s hs => ?_) postfixed ordered
      exact fun v isVariable read => ⟨s, hs, isVariable, v, read, rfl⟩
    exact Node.over_reduce (Postfix.over_toNode named tree built)

/-- With `y = 2` the variable `x` is left of `y ^ x`. -/
theorem no_new_variables_bound :
    let x : Node ℚ := .var ⟨'x', 0⟩ false
    let y : Node ℚ := .var ⟨'y', 0⟩ false
    let m : Node ℚ := .power ⟨y, x⟩
    let r : Node ℚ := .power ⟨.number 2, x⟩
    let s : Scope ℚ := { values := [("y", 2)] }
    m.evaluate (some s) = .ok r ∧
      ∀ name ∈ r.«variables», name ∈ m.«variables» ∧ s.lookup name = none := by
  intro x y m r s
  have evaluated : m.evaluate (some s) = .ok r := rfl
  exact ⟨evaluated, (no_new_variables m x).2.2.1 s r evaluated⟩

end SymbolicAlgebra
