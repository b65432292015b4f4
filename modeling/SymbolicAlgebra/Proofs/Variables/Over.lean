/-
  Expressions over some variables
  ===============================
  `Node.Over P n` says that every variable the expression reports has the property
  `P`. A term reports the variables of its real factors only, so the statements
  about terms and sums speak of these.
-/
import SymbolicAlgebra.Proofs.CarryOver.Property

namespace SymbolicAlgebra

variable {α : Type} [Scalar α] {P : String → Prop}

/-- Every reported variable has the property. -/
def Node.Over (P : String → Prop) (n : Node α) : Prop := ∀ name ∈ n.«variables», P name

/-- Every variable of the base and the exponent has the property. -/
def Factor.Over (P : String → Prop) (f : Factor (Node α)) : Prop := (Node.power f).Over P

/-- Every variable of the real factors has the property. -/
def Term.Over (P : String → Prop) (t : Term α (Node α)) : Prop := (Node.product t).Over P

theorem Factor.over_iff {f : Factor (Node α)} : f.Over P ↔ f.base.Over P ∧ f.exponent.Over P := by
  rw [Factor.Over, Node.Over, Node.«variables», List.forall_mem_append]
  rfl

theorem Term.over_iff {t : Term α (Node α)} :
    t.Over P ↔ (∀ f ∈ t.realFactors, f.Over P) ∧ ∀ f ∈ t.realDivisors, f.Over P := by
  have side : ∀ fs : List (Factor (Node α)),
      (∀ name ∈ Node.factorVariables fs, P name) ↔ ∀ f ∈ SymbolicAlgebra.realFactors fs, f.Over P := by
    intro fs
    simp only [Node.mem_factorVariables, Factor.Over, Node.Over]
    constructor
    · intro all f hf name reported
      exact all name ⟨f, hf, reported⟩
    · rintro each name ⟨f, hf, reported⟩
      exact each f hf name reported
  rw [Term.Over, Node.Over, Node.«variables», List.forall_mem_append, side, side]
  rfl

namespace Node

@[simp] theorem over_number (x : α) : (Node.number x).Over P := by
  simp [Over, «variables»]

@[simp] theorem over_constant (c : Constant) (negative : Bool) :
    (Node.constant c negative : Node α).Over P := by
  simp [Over, «variables»]

@[simp] theorem over_var {v : Variable} {negative : Bool} :
    (Node.var v negative : Node α).Over P ↔ P v.name := by
  simp [Over, «variables»]

@[simp] theorem over_power {f : Factor (Node α)} : (Node.power f).Over P ↔ f.Over P := Iff.rfl

@[simp] theorem over_product {t : Term α (Node α)} : (Node.product t).Over P ↔ t.Over P := Iff.rfl

@[simp] theorem over_sum {ts : List (Term α (Node α))} :
    (Node.sum ts).Over P ↔ ∀ t ∈ ts, t.Over P := by
  simp only [Over, «variables», mem_termVariables, Term.Over]
  constructor
  · intro all t ht name reported
    exact all name ⟨t, ht, reported⟩
  · rintro each name ⟨t, ht, reported⟩
    exact each t ht name reported

@[simp] theorem over_unary {f : Unary} {x : Node α} : (Node.unary f x).Over P ↔ x.Over P := by
  rw [Over, «variables»]
  rfl

@[simp] theorem over_binary {f : Binary} {x y : Node α} :
    (Node.binary f x y).Over P ↔ x.Over P ∧ y.Over P := by
  rw [Over, «variables», List.forall_mem_append]
  rfl

/-- The variables of an expression are those of its parts. -/
instance : Hereditary (Over P : Node α → Prop) where
  number := over_number
  constant := over_constant
  var h _ := over_var.2 (over_var.1 h)
  power := Factor.over_iff
  product := Term.over_iff
  terms := over_sum.1
  sum _ := over_sum.2
  unary := over_unary
  binary := over_binary

/-- An expression without variables reports none. -/
theorem over_of_isConstant {n : Node α} (constant : n.isConstant = true) : n.Over P := by
  induction n using Node.induction with
  | number x => exact over_number x
  | constant c negative => exact over_constant c negative
  | var v negative => simp [isConstant] at constant
  | power f base exponent =>
    rw [isConstant, Bool.and_eq_true] at constant
    exact Factor.over_iff.2 ⟨base constant.1, exponent constant.2⟩
  | product t above below =>
    obtain ⟨n, d, fs, gs⟩ := t
    rw [isConstant, Bool.and_eq_true, allConstant_eq, allConstant_eq, List.all_eq_true,
      List.all_eq_true] at constant
    have sides : (∀ f ∈ realFactors fs, f.Over P) ∧ ∀ f ∈ realFactors gs, f.Over P := by
      constructor
      · intro f hf
        have member := (List.mem_filter.1 hf).1
        exact above f member (constant.1 f member)
      · intro f hf
        have member := (List.mem_filter.1 hf).1
        exact below f member (constant.2 f member)
    exact Term.over_iff.2 sides
  | sum ts each =>
    rw [isConstant, allTermsConstant_eq, List.all_eq_true] at constant
    exact over_sum.2 fun t ht => each t ht (constant t ht)
  | unary f x ih =>
    rw [isConstant] at constant
    exact over_unary.2 (ih constant)
  | binary f x y left right =>
    rw [isConstant, Bool.and_eq_true] at constant
    exact over_binary.2 ⟨left constant.1, right constant.2⟩

end Node

end SymbolicAlgebra
