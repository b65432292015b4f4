/-
  Exact scalars
  =============
  Scalars that form a field, and scalars that are read exactly: whole numbers are
  the integers of a field of characteristic zero, a power to a whole exponent is the
  product it stands for, and reducing a fraction keeps its quotient. Functions,
  constants and powers to other exponents stay whatever they are.

  **`ExactScalar.power_eq`** is the only way a power is ever computed below;
  **`ExactScalar.reduceFraction_eq`** is all that is known of reduced fractions.
-/
import Mathlib.Algebra.CharZero.Defs
import Mathlib.Algebra.Field.Basic
import Mathlib.Algebra.Order.Ring.Int
import Mathlib.Data.Int.Cast.Lemmas
import Mathlib.Tactic.FieldSimp
import Mathlib.Tactic.Ring
import SymbolicAlgebra.Node.Term

namespace SymbolicAlgebra

/-- Scalars whose arithmetic is that of a field and whose test for equality decides it. -/
class FieldScalar (α : Type) extends Field α, Scalar α, LawfulBEq α

/-- Scalars read exactly. -/
class ExactScalar (α : Type) [FieldScalar α] : Prop extends CharZero α where
  isWhole_iff : ∀ x : α, Scalar.isWhole x = true ↔ ∃ z : ℤ, x = z
  toInt_cast : ∀ z : ℤ, Scalar.toInt (z : α) = z
  ofInt_cast : ∀ z : ℤ, Scalar.ofInt z = (z : α)
  lt_cast : ∀ w z : ℤ, Scalar.lt (w : α) (z : α) = decide (w < z)
  power_cast : ∀ (x : α) (z : ℤ), (x = 0 → 0 ≤ z) → Scalar.power x z = x ^ z
  reduceFraction_keeps : ∀ n d : α, d ≠ 0 →
    ∃ m c : α, Scalar.reduceFraction n d = .ok (m, c) ∧ c ≠ 0 ∧ m / c = n / d

/-! ### Scalars of a field -/

namespace FieldScalar

variable {α : Type} [FieldScalar α]

@[simp] theorem unsignedZero_eq (x : α) : Scalar.unsignedZero x = x := by
  unfold Scalar.unsignedZero
  split
  · rename_i zero
    exact (eq_of_beq zero).symm
  · rfl

@[simp] theorem ofValue_eq (x : α) : Node.ofValue x = .number x := by
  rw [Node.ofValue, unsignedZero_eq]

theorem quotient_eq {x y : α} (nonzero : y ≠ 0) : Scalar.quotient x y = x / y := by
  rw [Scalar.quotient, if_neg (by simpa using nonzero)]

/-- Dividing both parts by their common factor keeps the quotient. -/
theorem lowestTerms_keeps [CharZero α] (cast : ∀ z : ℤ, Scalar.ofInt z = (z : α)) (n : α) {d : α}
    (nonzero : d ≠ 0) : (Scalar.lowestTerms n d).2 ≠ 0 ∧
      (Scalar.lowestTerms n d).1 / (Scalar.lowestTerms n d).2 = n / d := by
  have factor : Scalar.commonFactor n d ≠ 0 := by
    unfold Scalar.commonFactor
    split
    · dsimp only
      split
      · exact one_ne_zero
      · rename_i some
        rw [cast]
        exact Int.cast_ne_zero.2 (Int.natCast_ne_zero.2 some)
    · exact one_ne_zero
  exact ⟨div_ne_zero nonzero factor, div_div_div_cancel_right₀ factor n d⟩

/-- The sign of an odd power of a negated base comes before the power. -/
theorem neg_zpow {x : α} (whole : Scalar.isWhole x = true) (b : α) :
    (-b) ^ Scalar.toInt x =
      (if Scalar.isOdd x = true then -1 else 1) * b ^ Scalar.toInt x := by
  have parity : Scalar.isOdd x = decide (Scalar.toInt x % 2 = 1) := by
    rw [Scalar.isOdd, whole, Bool.true_and]
    rfl
  rw [parity]
  by_cases odd : Scalar.toInt x % 2 = 1
  · rw [if_pos (by simpa using odd), (Int.odd_iff.2 odd).neg_zpow, neg_one_mul]
  · have even : Even (Scalar.toInt x) := Int.even_iff.2 (by omega)
    rw [if_neg (by simpa using odd), even.neg_zpow, one_mul]

end FieldScalar

/-! ### Whole numbers -/

namespace ExactScalar

variable {α : Type} [FieldScalar α] [ExactScalar α]

@[simp] theorem isWhole_cast (z : ℤ) : Scalar.isWhole (z : α) = true :=
  (isWhole_iff _).2 ⟨z, rfl⟩

/-- A whole scalar is the integer it stands for. -/
theorem cast_toInt {x : α} (whole : Scalar.isWhole x = true) : ((Scalar.toInt x : ℤ) : α) = x := by
  obtain ⟨z, rfl⟩ := (isWhole_iff x).1 whole
  rw [toInt_cast]

@[simp] theorem toInt_zero : Scalar.toInt (0 : α) = 0 := by
  rw [← Int.cast_zero, toInt_cast]

@[simp] theorem toInt_one : Scalar.toInt (1 : α) = 1 := by
  rw [← Int.cast_one, toInt_cast]

@[simp] theorem isWhole_zero : Scalar.isWhole (0 : α) = true := by
  rw [← Int.cast_zero, isWhole_cast]

@[simp] theorem isWhole_one : Scalar.isWhole (1 : α) = true := by
  rw [← Int.cast_one, isWhole_cast]

section Pair

variable {x y : α} (left : Scalar.isWhole x = true) (right : Scalar.isWhole y = true)

include left

theorem isWhole_neg : Scalar.isWhole (-x) = true := by
  obtain ⟨z, rfl⟩ := (isWhole_iff x).1 left
  rw [← Int.cast_neg, isWhole_cast]

theorem toInt_neg : Scalar.toInt (-x) = -Scalar.toInt x := by
  obtain ⟨z, rfl⟩ := (isWhole_iff x).1 left
  rw [← Int.cast_neg, toInt_cast, toInt_cast]

/-- A whole scalar is zero when the integer it stands for is. -/
theorem toInt_eq_zero : Scalar.toInt x = 0 ↔ x = 0 := by
  constructor
  · intro zero
    rw [← cast_toInt left, zero, Int.cast_zero]
  · rintro rfl
    exact toInt_zero

theorem lt_zero : Scalar.lt x 0 = decide (Scalar.toInt x < 0) := by
  obtain ⟨z, rfl⟩ := (isWhole_iff x).1 left
  rw [← Int.cast_zero, lt_cast, toInt_cast]

/-- The power to a whole exponent, where it exists. -/
theorem power_eq {b : α} (defined : b = 0 → 0 ≤ Scalar.toInt x) :
    Scalar.power b x = b ^ Scalar.toInt x := by
  obtain ⟨z, rfl⟩ := (isWhole_iff x).1 left
  rw [toInt_cast] at defined ⊢
  exact power_cast b z defined

include right

theorem isWhole_add : Scalar.isWhole (x + y) = true := by
  obtain ⟨w, rfl⟩ := (isWhole_iff x).1 left
  obtain ⟨z, rfl⟩ := (isWhole_iff y).1 right
  rw [← Int.cast_add, isWhole_cast]

theorem toInt_add : Scalar.toInt (x + y) = Scalar.toInt x + Scalar.toInt y := by
  obtain ⟨w, rfl⟩ := (isWhole_iff x).1 left
  obtain ⟨z, rfl⟩ := (isWhole_iff y).1 right
  rw [← Int.cast_add, toInt_cast, toInt_cast, toInt_cast]

theorem isWhole_sub : Scalar.isWhole (x - y) = true := by
  rw [sub_eq_add_neg]
  exact isWhole_add left (isWhole_neg right)

theorem toInt_sub : Scalar.toInt (x - y) = Scalar.toInt x - Scalar.toInt y := by
  rw [sub_eq_add_neg, toInt_add left (isWhole_neg right), toInt_neg right, sub_eq_add_neg]

theorem isWhole_mul : Scalar.isWhole (x * y) = true := by
  obtain ⟨w, rfl⟩ := (isWhole_iff x).1 left
  obtain ⟨z, rfl⟩ := (isWhole_iff y).1 right
  rw [← Int.cast_mul, isWhole_cast]

theorem toInt_mul : Scalar.toInt (x * y) = Scalar.toInt x * Scalar.toInt y := by
  obtain ⟨w, rfl⟩ := (isWhole_iff x).1 left
  obtain ⟨z, rfl⟩ := (isWhole_iff y).1 right
  rw [← Int.cast_mul, toInt_cast, toInt_cast, toInt_cast]

theorem lt_eq : Scalar.lt x y = decide (Scalar.toInt x < Scalar.toInt y) := by
  obtain ⟨w, rfl⟩ := (isWhole_iff x).1 left
  obtain ⟨z, rfl⟩ := (isWhole_iff y).1 right
  rw [lt_cast, toInt_cast, toInt_cast]

end Pair

/-- Reducing a fraction succeeds and keeps its quotient. -/
theorem reduceFraction_eq (n : α) {d : α} (nonzero : d ≠ 0) :
    ∃ m c : α, Scalar.reduceFraction n d = .ok (m, c) ∧ c ≠ 0 ∧ m / c = n / d :=
  reduceFraction_keeps n d nonzero

end ExactScalar

end SymbolicAlgebra
