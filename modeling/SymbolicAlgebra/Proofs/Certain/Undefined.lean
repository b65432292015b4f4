/-
  Undefined numbers
  =================
  A number that differs from itself is undefined. Where an expression cannot but be
  zero or one, evaluating it may still lead through an undefined number: a division by
  zero, zero times an infinite number. So what is certainly `c` *amounts* to `c` at
  best (`Scalar.Amounts`): it equals `c` or is undefined.

  `LossyScalar` asks for what floating-point arithmetic guarantees of zero, one and
  undefined numbers. The rational numbers with an undefined one (`Partial`) are such
  scalars.
-/
import SymbolicAlgebra.Proofs.Value.Rational

namespace SymbolicAlgebra

namespace Scalar

variable {α : Type} [Scalar α]

/-- The number differs from itself. -/
def Undefined (x : α) : Prop := (x == x) = false

/-- The first number equals the second or is undefined. -/
def Amounts (x c : α) : Prop := (x == c) = true ∨ Undefined x

/-- Zero to the power of this number is zero or undefined: it is not zero, and not infinite and
below zero. -/
def Vanishing (x : α) : Prop := (x == 0) = false ∧ (isFinite x = true ∨ lt x 0 = false)

end Scalar

open Scalar (Amounts Undefined Vanishing)

/-- Scalars that are undefined where something undefined went in or an operation has no result. -/
class LossyScalar (α : Type) [Scalar α] : Prop extends PartialEquivBEq α where
  one_beq_one : ((1 : α) == 1) = true
  undefined : Undefined (Scalar.undefined : α)
  zero_mul : ∀ {x : α} (y : α), Amounts x 0 → Amounts (x * y) 0
  mul_zero : ∀ (x : α) {y : α}, Amounts y 0 → Amounts (x * y) 0
  zero_div : ∀ {x y : α}, Amounts x 0 → (y == 0) = false → Amounts (x / y) 0
  div_same : ∀ {x y : α}, (x == y) = true → (y == 0) = false → Amounts (x / y) 1
  zero_power : ∀ {b x : α}, (b == 0) = true → Vanishing x → Amounts (Scalar.power b x) 0
  one_power : ∀ {b : α} (x : α), (b == 1) = true → Amounts (Scalar.power b x) 1
  undefined_power : ∀ {b x : α}, Undefined b → (x == 0) = false → Undefined (Scalar.power b x)
  power_undefined : ∀ (b : α) {x : α}, Undefined x → Amounts (Scalar.power b x) 1

namespace Scalar

variable {α : Type} [Scalar α] [LossyScalar α] {x y c : α}

theorem Undefined.beq (h : Undefined x) : (x == y) = false := by
  rw [← Bool.not_eq_true]
  intro same
  have itself : (x == x) = true := PartialEquivBEq.trans same (PartialEquivBEq.symm same)
  rw [h] at itself
  cases itself

theorem Amounts.unsignedZero (h : Amounts x c) : Amounts (unsignedZero x) c := by
  unfold Scalar.unsignedZero
  split
  · rename_i zero
    rcases h with equal | undefined
    · exact .inl (PartialEquivBEq.trans (PartialEquivBEq.symm zero) equal)
    · rw [undefined.beq] at zero
      cases zero
  · exact h

theorem unsignedZero_beq (same : (x == y) = true) :
    (Scalar.unsignedZero x == Scalar.unsignedZero y) = true := by
  unfold Scalar.unsignedZero
  by_cases zero : (x == 0) = true
  · rw [if_pos zero, if_pos (PartialEquivBEq.trans (PartialEquivBEq.symm same) zero)]
    exact Scalar.zero_beq_zero
  · rw [if_neg zero, if_neg fun other => zero (PartialEquivBEq.trans same other)]
    exact same

/-- Zero over anything is zero or undefined. -/
theorem Amounts.quotient (h : Amounts x 0) (y : α) : Amounts (quotient x y) 0 := by
  unfold Scalar.quotient
  split
  · exact .inr LossyScalar.undefined
  · rename_i nonzero
    exact LossyScalar.zero_div h (by simpa using nonzero)

/-- A number over itself is one or undefined. -/
theorem quotient_same (same : (x == y) = true) : Amounts (quotient x y) 1 := by
  unfold Scalar.quotient
  split
  · exact .inr LossyScalar.undefined
  · rename_i nonzero
    exact LossyScalar.div_same same (by simpa using nonzero)

theorem Amounts.zero_power (h : Amounts x 0) (vanishing : Vanishing y) : Amounts (power x y) 0 :=
  h.elim (LossyScalar.zero_power · vanishing)
    fun undefined => .inr (LossyScalar.undefined_power undefined vanishing.1)

theorem Amounts.one_power (h : Amounts x 1) (nonzero : (y == 0) = false) : Amounts (power x y) 1 :=
  h.elim (LossyScalar.one_power y)
    fun undefined => .inr (LossyScalar.undefined_power undefined nonzero)

end Scalar

/-! ### Rational numbers with an undefined one -/

/-- A rational number, or an undefined one. -/
inductive Partial
  | undefined
  | number (x : ℚ)

namespace Partial

/-- The function where its argument is defined. -/
def lift (f : ℚ → ℚ) : Partial → Partial
  | undefined => undefined
  | number x => number (f x)

/-- The function where both arguments are defined. -/
def lift₂ (f : ℚ → ℚ → Partial) : Partial → Partial → Partial
  | number x, number y => f x y
  | _, _ => undefined

/-- The number, zero for an undefined one. -/
def value : Partial → ℚ
  | undefined => 0
  | number x => x

/-- Whether the number is defined. -/
def isDefined : Partial → Bool
  | undefined => false
  | number _ => true

/-- The quotient, undefined over zero. -/
def divide (x y : ℚ) : Partial := if y = 0 then undefined else number (x / y)

/-- The power under a whole exponent; under any other one, and for a negative power of zero,
undefined. -/
def power (b x : ℚ) : Partial :=
  if x.den = 1 ∧ (b = 0 → 0 ≤ x) then number (b ^ x.num) else undefined

instance : Scalar Partial where
  zero := number 0
  one := number 1
  add := lift₂ fun x y => number (x + y)
  sub := lift₂ fun x y => number (x - y)
  mul := lift₂ fun x y => number (x * y)
  div := lift₂ divide
  neg := lift fun x => -x
  beq x y := x.isDefined && y.isDefined && x.value == y.value
  lt x y := x.isDefined && y.isDefined && Scalar.lt x.value y.value
  isFinite := isDefined
  isWhole x := x.isDefined && Scalar.isWhole x.value
  toInt x := Scalar.toInt x.value
  ofInt z := number (Scalar.ofInt z)
  ofDecimal d := number (Scalar.ofDecimal d)
  places x := Scalar.places x.value
  nearestWhole x := if x.isDefined then (Scalar.nearestWhole x.value).map number else none
  power := lift₂ power
  undefined := undefined
  constant _ := undefined
  unary f := lift (Scalar.unary f)
  binary f := lift₂ fun x y => number (Scalar.binary f x y)
  text x := if x.isDefined then Scalar.text x.value else "NaN"
  zero_beq_zero := by decide

theorem number_beq {x y : ℚ} : (number x == number y) = (x == y) := by
  show (true && true && (x == y)) = (x == y)
  rw [Bool.and_self, Bool.true_and]

theorem beq_iff {x y : Partial} : (x == y) = true ↔ ∃ z, x = number z ∧ y = number z := by
  constructor
  · intro same
    cases x with
    | undefined => cases same
    | number z =>
      cases y with
      | undefined => cases same
      | number w =>
        rw [number_beq, beq_iff_eq] at same
        exact ⟨z, rfl, congrArg number same.symm⟩
  · rintro ⟨z, rfl, rfl⟩
    rw [number_beq, beq_self_eq_true]

theorem amounts_iff {x : Partial} {c : ℚ} :
    Amounts x (number c) ↔ x = number c ∨ x = undefined := by
  cases x with
  | undefined => exact ⟨fun _ => .inr rfl, fun _ => .inr rfl⟩
  | number x =>
    unfold Scalar.Amounts Scalar.Undefined
    rw [number_beq, number_beq]
    simp

theorem undefined_iff {x : Partial} : Undefined x ↔ x = undefined := by
  cases x with
  | undefined => exact ⟨fun _ => rfl, fun _ => rfl⟩
  | number x =>
    unfold Scalar.Undefined
    rw [number_beq]
    simp

instance : LossyScalar Partial where
  symm same := by
    obtain ⟨z, rfl, rfl⟩ := beq_iff.1 same
    exact same
  trans first second := by
    obtain ⟨z, rfl, rfl⟩ := beq_iff.1 first
    exact second
  one_beq_one := rfl
  undefined := rfl
  zero_mul {x} y zero := by
    rcases amounts_iff.1 zero with rfl | rfl
    · cases y with
      | undefined => exact .inr rfl
      | number y => exact amounts_iff.2 (.inl (congrArg number (zero_mul y)))
    · exact .inr rfl
  mul_zero x y zero := by
    rcases amounts_iff.1 zero with rfl | rfl
    · cases x with
      | undefined => exact .inr rfl
      | number x => exact amounts_iff.2 (.inl (congrArg number (mul_zero x)))
    · cases x <;> exact .inr rfl
  zero_div {x y} zero nonzero := by
    rcases amounts_iff.1 zero with rfl | rfl
    · cases y with
      | undefined => exact .inr rfl
      | number y =>
        refine amounts_iff.2 ?_
        show divide 0 y = _ ∨ divide 0 y = _
        unfold divide
        split
        · exact .inr rfl
        · exact .inl (congrArg number (zero_div y))
    · exact .inr rfl
  div_same {x y} same nonzero := by
    obtain ⟨z, rfl, rfl⟩ := beq_iff.1 same
    refine amounts_iff.2 ?_
    show divide z z = _ ∨ divide z z = _
    unfold divide
    split
    · exact .inr rfl
    · rename_i some
      exact .inl (congrArg number (div_self some))
  zero_power {b x} zero vanishing := by
    obtain ⟨z, rfl, base⟩ := beq_iff.1 zero
    cases base
    cases x with
    | undefined => exact .inr rfl
    | number x =>
      refine amounts_iff.2 ?_
      show power 0 x = _ ∨ power 0 x = _
      unfold power
      split
      · rename_i whole
        have exponent : x.num ≠ 0 := by
          intro none
          rw [Rat.num_eq_zero.1 none] at vanishing
          cases vanishing.1
        exact .inl (congrArg number (zero_zpow _ exponent))
      · exact .inr rfl
  one_power {b} x one := by
    obtain ⟨z, rfl, base⟩ := beq_iff.1 one
    cases base
    cases x with
    | undefined => exact .inr rfl
    | number x =>
      refine amounts_iff.2 ?_
      show power 1 x = _ ∨ power 1 x = _
      unfold power
      split
      · exact .inl (congrArg number (one_zpow _))
      · exact .inr rfl
  undefined_power {b x} none nonzero := by
    obtain rfl := undefined_iff.1 none
    rfl
  power_undefined b x none := by
    obtain rfl := undefined_iff.1 none
    cases b <;> exact .inr rfl

end Partial

end SymbolicAlgebra
