/-
  Simplifying and reducing preserve meaning
  =========================================
  For every expression whose exponents are plain numbers and every scope in which it
  is defined, evaluating it, evaluating what it simplifies to and evaluating what it
  reduces to give one number (**`Node.evaluate_simplify_reduce`**).
-/
import SymbolicAlgebra.Proofs.Value.Rational
import SymbolicAlgebra.Proofs.Value.Simplify

namespace SymbolicAlgebra.Node

/-- Simplifying succeeds, and neither it nor reducing changes what an expression evaluates to. -/
theorem evaluate_simplify_reduce {α : Type} [FieldScalar α] [ExactScalar α] {s : Scope α}
    {n : Node α} (defined : n.Admitted .plain s) :
    ∃ x m, n.evaluate (some s) = .ok (.number x) ∧ n.simplify = .ok m ∧
      m.evaluate (some s) = .ok (.number x) ∧ n.reduce.evaluate (some s) = .ok (.number x) := by
  obtain ⟨m, simplified, replaced⟩ :=
    simplifyAt_replacing (ExponentRules.sound_plain n.level) n.depth n defined
  have reduced := reduce_replaces defined
  refine ⟨n.value s, m, evaluate_eq defined, simplified, ?_, ?_⟩
  · rw [evaluate_eq replaced.admitted, replaced.value]
  · rw [evaluate_eq reduced.admitted, reduced.value]

/-- A negative power below and above the bar, like bases, and a call, at `x = -2`. -/
theorem evaluate_simplify_reduce_rational :
    let x : Node ℚ := .var ⟨'x', 0⟩ false
    let n : Node ℚ := .sum [⟨6, 4, [⟨x, .number (-1)⟩], [⟨x, .number 2⟩]⟩,
      ⟨1, 1, [⟨.unary .abs (.var ⟨'x', 0⟩ true), .number 3⟩], []⟩]
    let s : Scope ℚ := { values := [("x", -2)] }
    n.Admitted .plain s ∧ ∃ y m, n.evaluate (some s) = .ok (.number y) ∧ n.simplify = .ok m ∧
      m.evaluate (some s) = .ok (.number y) ∧ n.reduce.evaluate (some s) = .ok (.number y) := by
  intro x n s
  have bound : s.get (Variable.name ⟨'x', 0⟩) = .ok (some (-2)) := by decide +kernel
  have var : ∀ negative, Node.Admitted .plain s (.var ⟨'x', 0⟩ negative) :=
    fun negative => .var _ _ (-2) bound
  have size : x.value s = -2 := by decide +kernel
  have power : ∀ z : ℚ, Scalar.isWhole z = true → Factor.Admitted .plain s ⟨x, .number z⟩ := by
    intro z whole
    refine .power _ (var false) (.number z) ⟨?_, ?_, rfl, trivial⟩
    · rwa [Node.value]
    · intro zero
      exact absurd (size.symm.trans zero) (by decide)
  have defined : n.Admitted .plain s := by
    refine admitted_sum.2 (List.forall_mem_cons.2 ⟨?_, List.forall_mem_cons.2 ⟨?_, ?_⟩⟩)
    · refine Term.admitted_iff.2 ⟨by decide, ?_, ?_, ?_, fun _ _ => trivial, fun _ _ => trivial⟩
      · intro f hf
        obtain rfl := List.mem_singleton.1 hf
        exact power (-1) (by decide +kernel)
      · intro f hf
        obtain rfl := List.mem_singleton.1 hf
        exact power 2 (by decide +kernel)
      · intro f hf
        obtain rfl := List.mem_singleton.1 hf
        rw [Factor.value, size]
        exact zpow_ne_zero _ (by decide)
    · refine Term.admitted_iff.2 ⟨by decide, ?_, ?_, ?_, fun _ _ => trivial, fun _ _ => trivial⟩
      · intro f hf
        obtain rfl := List.mem_singleton.1 hf
        refine .power _ (.unary .abs _ (var true)) (.number 3) ⟨?_, ?_, rfl, trivial⟩
        · rw [Node.value]
          decide +kernel
        · exact fun _ => by decide +kernel
      · intro f hf
        cases hf
      · intro f hf
        cases hf
    · intro t ht
      cases ht
  exact ⟨defined, evaluate_simplify_reduce defined⟩

end SymbolicAlgebra.Node
