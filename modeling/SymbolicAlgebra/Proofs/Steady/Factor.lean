/-
  Expressions that stay as they are
  =================================
  An expression is *steady* when simplifying and reducing leave it alone, whatever the
  bounds on their recursions. A factor of steady parts lasts in a term when its base
  stays a base under its exponent (`Node.keeps`): it is not a number under a number, it
  does not dissolve under the exponent one, it does not give its sign up under a whole
  exponent, and it is no power that the exponent multiplies into.

  Building a term adds a lasting factor as it stands (`Factor.Lasts.stable`). By itself
  the factor is a node (`Factor.shown`): reducing the factor gives this node
  (**`Factor.Lasts.reduceFactor_eq`**), and taken as a term the node has just the factor
  (`Factor.Lasts.wrap_shown`).
-/
import SymbolicAlgebra.Proofs.Value.Addition

namespace SymbolicAlgebra

/-- Exact numbers in an order, whose fractions come to lowest terms in one step. -/
class SteadyScalar (α : Type) [FieldScalar α] [ExactScalar α] : Prop where
  lt_neg : ∀ x : α, Scalar.lt x 0 = true → Scalar.lt (-x) 0 = false
  lt_asymm : ∀ x y : α, Scalar.lt x y = true → Scalar.lt y x = false
  lt_weak : ∀ x y z : α, Scalar.lt x y = false → Scalar.lt y z = false → Scalar.lt x z = false
  reduceFraction_exists : ∀ n d : α, ∃ m c, Scalar.reduceFraction n d = .ok (m, c)
  reduceFraction_again : ∀ {n d m c : α}, Scalar.reduceFraction n d = .ok (m, c) →
    Scalar.lt d 0 = false → Scalar.reduceFraction m c = .ok (m, c) ∧ Scalar.lt c 0 = false ∧
      (m = 0 ↔ n = 0) ∧ (c = 0 ↔ d = 0)

variable {α : Type} [FieldScalar α]

namespace ExactScalar

variable [ExactScalar α]

theorem one_lt_zero : Scalar.lt (1 : α) 0 = false := by
  rw [lt_zero isWhole_one, toInt_one]
  rfl

theorem power_one (x : α) : Scalar.power x 1 = x := by
  rw [power_eq isWhole_one, toInt_one, zpow_one]
  rw [toInt_one]
  exact fun _ => zero_le_one

end ExactScalar

namespace Node

/-- Simplifying and reducing leave the expression alone. -/
structure Steady (n : Node α) : Prop where
  simplified : ∀ level depth, simplifyAt (exponentRules level) depth n = .ok n
  reduced : ∀ height, reduceAt height n = n

namespace Steady

theorem number (x : α) : (Node.number x).Steady where
  simplified _ depth := by cases depth <;> rfl
  reduced height := by cases height <;> rfl

theorem constant (c : Constant) (negative : Bool) :
    (Node.constant c negative : Node α).Steady where
  simplified _ depth := by cases depth <;> rfl
  reduced height := by cases height <;> rfl

theorem var (v : Variable) (negative : Bool) : (Node.var v negative : Node α).Steady where
  simplified _ depth := by cases depth <;> rfl
  reduced height := by cases height <;> rfl

variable {x y : Node α}

theorem unary (f : Unary) (h : x.Steady) : (Node.unary f x).Steady where
  simplified level depth := by
    cases depth with
    | zero => rfl
    | succ depth =>
      rw [simplifyAt, h.simplified]
      rfl
  reduced height := by
    cases height with
    | zero => rfl
    | succ height => rw [reduceAt, h.reduced]

theorem binary (f : Binary) (h : x.Steady) (k : y.Steady) : (Node.binary f x y).Steady where
  simplified level depth := by
    cases depth with
    | zero => rfl
    | succ depth =>
      rw [simplifyAt, h.simplified, k.simplified]
      rfl
  reduced height := by
    cases height with
    | zero => rfl
    | succ height => rw [reduceAt, h.reduced, k.reduced]

/-- The exponents of a steady factor are tidy at every level. -/
theorem tidy (h : x.Steady) (level : Nat) : (exponentRules level).tidy x = .ok x := by
  cases level with
  | zero => exact congrArg Except.ok (h.reduced x.height)
  | succ level =>
    rw [exponentRules]
    dsimp only
    rw [h.simplified]
    exact congrArg Except.ok (h.reduced x.height)

end Steady

/-- Whether a base stays a base under a number as exponent. -/
def keeps (x : α) : Node α → Bool
  | .number _ => false
  | .constant _ negative => !(negative && Scalar.isWhole x)
  | .var _ negative => !(negative && Scalar.isWhole x)
  | .power ⟨_, .number y⟩ => !(x == 1) && !(Scalar.isWhole y && Scalar.isWhole x)
  | .power _ => !(x == 1)
  | .product _ => !(x == 1)
  | .sum [_] => !(x == 1)
  | _ => true

/-- A base that stays one under every number as exponent. -/
def Firm (n : Node α) : Prop := ∀ x : α, n.keeps x = true

theorem isSpliced_of_keeps {n : Node α} (h : n.keeps 1 = true) : n.isSpliced = false := by
  rcases n with _ | _ | _ | ⟨_, _ | _⟩ | _ | ⟨_ | ⟨_, _ | _⟩⟩ | _ | _ <;>
    simp [keeps, isSpliced] at h ⊢

theorem eq_number_of_isUnit {n : Node α} (h : n.isUnit = true) : n = .number 1 := by
  cases n with
  | number x => rw [eq_of_beq (show (x == 1) = true from h)]
  | _ => cases h

end Node

namespace Factor

/-- The exponent does not vanish, and if it is a number it is positive and keeps the base. -/
structure Lasts (f : Factor (Node α)) : Prop where
  real : f.exponent.isZero = false
  number : ∀ x, f.exponent = .number x → Scalar.lt x 0 = false ∧ f.base.keeps x = true

/-- Multiplying a term by a lasting factor adds it as it stands. -/
theorem Lasts.multiplyBy_eq {f : Factor (Node α)} (h : f.Lasts) (t : Term α (Node α))
    (above : Bool) : t.multiplyBy above f = t.push above f := by
  obtain ⟨base, exponent⟩ := f
  unfold Term.multiplyBy
  dsimp only
  split
  · rename_i b x
    cases (h.number x rfl).2
  · rename_i v x
    have part := (h.number x rfl).2
    rw [Node.keeps, Bool.true_and, Bool.not_eq_true'] at part
    rw [if_neg (by simp [part])]
  · rename_i c x
    have part := (h.number x rfl).2
    rw [Node.keeps, Bool.true_and, Bool.not_eq_true'] at part
    rw [if_neg (by simp [part])]
  · rfl

theorem Lasts.stable {f : Factor (Node α)} (h : f.Lasts) : f.Stable := by
  apply Term.stable_of_pushed h.real
  · intro unit
    exact Node.isSpliced_of_keeps (h.number 1 (Node.eq_number_of_isUnit unit)).2
  · exact fun x number => (h.number x number).1
  · exact h.multiplyBy_eq

end Factor

/-- A node that does not dissolve is a factor of its own as a term. -/
theorem Term.wrap_eq {n : Node α} (whole : n.isSpliced = false) :
    wrap n = normal 1 1 [⟨n, .number 1⟩] [] := by
  rcases n with _ | _ | _ | _ | _ | ⟨_ | ⟨_, _ | _⟩⟩ | _ | _ <;>
    first | rfl | cases whole

/-! ### Factors by themselves -/

namespace Factor

variable {f : Factor (Node α)}

/-- A factor under the plain exponent one is its base under that exponent. -/
theorem eq_of_isUnit (unit : f.isUnit = true) : f = ⟨f.base, .number 1⟩ := by
  rw [← Node.eq_number_of_isUnit unit]

namespace Lasts

theorem isSpliced (h : f.Lasts) (unit : f.isUnit = true) : f.base.isSpliced = false :=
  Node.isSpliced_of_keeps (h.number 1 (Node.eq_number_of_isUnit unit)).2

theorem asFactor_shown (h : f.Lasts) : f.shown.asFactor = f := by
  cases unit : f.isUnit with
  | false =>
    rw [shown_of_other unit]
    rfl
  | true =>
    rw [shown_of_isUnit unit, Node.asFactor_of_whole (h.isSpliced unit)]
    exact (eq_of_isUnit unit).symm

/-- As a term the node of a factor has just this factor. -/
theorem wrap_shown (h : f.Lasts) : Term.wrap f.shown = Term.normal 1 1 [f] [] := by
  cases unit : f.isUnit with
  | false =>
    rw [shown_of_other unit]
    rfl
  | true =>
    rw [shown_of_isUnit unit, Term.wrap_eq (h.isSpliced unit), ← eq_of_isUnit unit]

theorem shown_isNumber (h : f.Lasts) : f.shown.isNumber = false := by
  cases unit : f.isUnit with
  | false =>
    rw [shown_of_other unit]
    rfl
  | true =>
    have kept := (h.number 1 (Node.eq_number_of_isUnit unit)).2
    rw [shown_of_isUnit unit]
    cases base : f.base with
    | number x =>
      rw [base] at kept
      cases kept
    | _ => rfl

theorem raised_eq (h : f.Lasts) : Factor.raised f.base f.exponent = f := by
  obtain ⟨base, exponent⟩ := f
  unfold Factor.raised
  dsimp only
  split
  · rename_i inner y x
    have kept := (h.number x rfl).2
    simp only [Node.keeps, Bool.and_eq_true, Bool.not_eq_true'] at kept
    rw [if_neg (by simp [kept.2])]
  · rfl

/-- A lasting factor whose parts are reduced reduces to its node. -/
theorem reduceFactor_eq (h : f.Lasts) {reduce : Node α → Node α} (base : reduce f.base = f.base)
    (exponent : reduce f.exponent = f.exponent) : Node.reduceFactor reduce f = f.shown := by
  have raised := h.raised_eq
  have real := h.real
  obtain ⟨b, e⟩ := f
  dsimp only at base exponent raised real
  unfold Node.reduceFactor
  rw [base, exponent]
  cases e with
  | number x =>
    have nonzero : (x == 0) = false := real
    dsimp only
    rw [raised, nonzero, if_neg (by simp)]
    rfl
  | _ => exact congrArg Node.power raised

end Lasts

/-- A lasting factor that is not certainly one, of steady parts. -/
structure Steady (f : Factor (Node α)) : Prop where
  base : f.base.Steady
  exponent : f.exponent.Steady
  real : f.isOne = false
  lasts : f.Lasts

/-- A variable under a positive number is steady. -/
theorem steady_var (v : Variable) {x : α} (positive : Scalar.lt x 0 = false) (some : x ≠ 0) :
    (⟨.var v false, .number x⟩ : Factor (Node α)).Steady where
  base := .var v false
  exponent := .number x
  real := by simp [Factor.isOne, Node.isOne, Node.isZero, some]
  lasts := by
    refine ⟨by simp [Node.isZero, some], ?_⟩
    rintro z ⟨⟩
    exact ⟨positive, rfl⟩

namespace Steady

variable {f : Factor (Node α)}

/-- Simplifying leaves a steady factor alone. -/
theorem simplifyFactor_eq (h : f.Steady) (level depth : Nat) :
    Node.simplifyFactor (Node.exponentRules level)
      (Node.simplifyAt (Node.exponentRules level) depth) f = .ok f := by
  obtain ⟨base, exponent⟩ := f
  unfold Node.simplifyFactor
  rw [h.base.simplified, h.exponent.tidy]
  simp only [bind, Except.bind, pure, Except.pure]
  rw [show base.reduce = base from h.base.reduced _, h.lasts.real, if_neg (by simp)]
  split
  · rename_i b x
    cases (h.lasts.number x rfl).2
  · rfl

end Steady

end Factor

end SymbolicAlgebra
