/-
  Binary floating-point numbers are lossy
  =======================================
  Zero, one and undefined binary64 numbers obey the rules of lossy scalars. For products
  and quotients this follows from what the operations do with a number that is taken
  apart (`Binary64.unpacked`); powers are those of the numeric library of the machine,
  which has to obey the rules of its standard (`Binary64.Powers`): **`Binary64.lossy`**.
-/
import Mathlib
import SymbolicAlgebra.Binary64.Arithmetic
import SymbolicAlgebra.Proofs.Certain.Undefined

namespace SymbolicAlgebra.Binary64

open Float.Model (UnpackedFloat)
open Float.Model.UnpackedFloat (Sign)
open Scalar (Amounts Undefined Vanishing)

/-- The number as a signed zero, a signed infinity, a sign with a mantissa and an exponent, or none
of these. -/
def unpacked (x : Float) : UnpackedFloat := x.toModel.unpack

/-! ### Equality -/

theorem beq_unpacked_iff {a b : UnpackedFloat} : a.beq b = true ↔
    (∃ s t, a = .zero s ∧ b = .zero t) ∨ (∃ s, a = .infinity s ∧ b = .infinity s) ∨
      ∃ s m e h, a = .finite s m e h ∧ b = .finite s m e h := by
  have signs : ∀ s t : Sign, compare s t = .eq ↔ s = t := by
    intro s t
    cases s <;> cases t <;> simp [compare]
  cases a with
  | notANumber => cases b <;> simp [UnpackedFloat.beq, UnpackedFloat.compare]
  | infinity s =>
    cases b with
    | infinity t => simpa [UnpackedFloat.beq, UnpackedFloat.compare, signs] using eq_comm
    | _ => cases s <;> simp [UnpackedFloat.beq, UnpackedFloat.compare]
  | zero s =>
    cases b with
    | zero t => simp [UnpackedFloat.beq, UnpackedFloat.compare]
    | notANumber => simp [UnpackedFloat.beq, UnpackedFloat.compare]
    | infinity t => cases t <;> simp [UnpackedFloat.beq, UnpackedFloat.compare]
    | finite t => cases t <;> simp [UnpackedFloat.beq, UnpackedFloat.compare]
  | finite s m e h =>
    cases b with
    | zero t => cases s <;> simp [UnpackedFloat.beq, UnpackedFloat.compare]
    | notANumber => simp [UnpackedFloat.beq, UnpackedFloat.compare]
    | infinity t => cases t <;> simp [UnpackedFloat.beq, UnpackedFloat.compare]
    | finite t n k g =>
      cases s <;> cases t <;>
        simp only [UnpackedFloat.beq, UnpackedFloat.compare, beq_iff_eq, Option.some.injEq,
          Ordering.swap_eq_eq, Ordering.then_eq_eq, compare_eq_iff_eq] <;> grind

theorem beq_iff {x y : Float} : (x == y) = true ↔
    (∃ s t, unpacked x = .zero s ∧ unpacked y = .zero t) ∨
      (∃ s, unpacked x = .infinity s ∧ unpacked y = .infinity s) ∨
        ∃ s m e h, unpacked x = .finite s m e h ∧ unpacked y = .finite s m e h := beq_unpacked_iff

theorem undefined_iff {x : Float} : Undefined x ↔ unpacked x = .notANumber := by
  unfold Scalar.Undefined
  rw [← Bool.not_eq_true, beq_iff]
  cases unpacked x with
  | finite s m e positive =>
    simp
    omega
  | _ => simp

theorem zero_iff {x : Float} : (x == 0) = true ↔ ∃ s, unpacked x = .zero s := by
  have zero : unpacked 0 = .zero .positive := by with_unfolding_all rfl
  rw [beq_iff, zero]
  simp

theorem amounts_zero_iff {x : Float} :
    Amounts x 0 ↔ (∃ s, unpacked x = .zero s) ∨ unpacked x = .notANumber := by
  rw [Scalar.Amounts, zero_iff, undefined_iff]

/-! ### Products and quotients -/

theorem unpacked_mul (x y : Float) : unpacked (x * y) =
    (Float.Model.pack (UnpackedFloat.mul .binary64 (unpacked x) (unpacked y))).unpack := rfl

theorem unpacked_div (x y : Float) : unpacked (x / y) =
    (Float.Model.pack (UnpackedFloat.div .binary64 (unpacked x) (unpacked y))).unpack := rfl

theorem unpack_pack_zero (s : Sign) : (Float.Model.pack (.zero s)).unpack = .zero s := by
  cases s <;> with_unfolding_all rfl

theorem unpack_pack_undefined : (Float.Model.pack .notANumber).unpack = .notANumber := by
  with_unfolding_all rfl

theorem zero_mul {x : Float} (y : Float) (zero : Amounts x 0) : Amounts (x * y) 0 := by
  rw [amounts_zero_iff] at zero ⊢
  rw [unpacked_mul]
  rcases zero with ⟨s, zero⟩ | undefined
  · rw [zero]
    cases unpacked y with
    | notANumber => exact .inr unpack_pack_undefined
    | infinity t => exact .inr unpack_pack_undefined
    | zero t => exact .inl ⟨_, unpack_pack_zero _⟩
    | finite t m e h => exact .inl ⟨_, unpack_pack_zero _⟩
  · rw [undefined]
    exact .inr unpack_pack_undefined

theorem mul_zero (x : Float) {y : Float} (zero : Amounts y 0) : Amounts (x * y) 0 := by
  rw [amounts_zero_iff] at zero ⊢
  rw [unpacked_mul]
  rcases zero with ⟨s, zero⟩ | undefined
  · rw [zero]
    cases unpacked x with
    | notANumber => exact .inr unpack_pack_undefined
    | infinity t => exact .inr unpack_pack_undefined
    | zero t => exact .inl ⟨_, unpack_pack_zero _⟩
    | finite t m e h => exact .inl ⟨_, unpack_pack_zero _⟩
  · rw [undefined]
    cases unpacked x <;> exact .inr unpack_pack_undefined

theorem zero_div {x : Float} (y : Float) (zero : Amounts x 0) : Amounts (x / y) 0 := by
  rw [amounts_zero_iff] at zero ⊢
  rw [unpacked_div]
  rcases zero with ⟨s, zero⟩ | undefined
  · rw [zero]
    cases unpacked y with
    | notANumber => exact .inr unpack_pack_undefined
    | infinity t => exact .inl ⟨_, unpack_pack_zero _⟩
    | zero t => exact .inr unpack_pack_undefined
    | finite t m e h => exact .inl ⟨_, unpack_pack_zero _⟩
  · rw [undefined]
    exact .inr unpack_pack_undefined

/-- The quotient of equal mantissas is exact, so nothing is rounded. -/
theorem divCore_same {m : Nat} (positive : 0 < m) (e : Int) :
    UnpackedFloat.divCore .binary64 m e m e = (2 ^ 53, -53, .exact) := by
  have target : Float.Model.Format.binary64.targetExponent 0 = -53 := by decide
  have quotient : m <<< 53 / m = 2 ^ 53 := by
    rw [Nat.shiftLeft_eq, Nat.mul_div_cancel_left _ positive]
  have remainder : m <<< 53 % m = 0 := by rw [Nat.shiftLeft_eq, Nat.mul_mod_right]
  unfold UnpackedFloat.divCore
  dsimp only
  rw [Int.sub_self, Int.sub_self, target]
  show (m <<< 53 / m, (-53 : Int), UnpackedFloat.accuracyOfFraction (m <<< 53 % m) m) = _
  rw [quotient, remainder]
  rfl

theorem div_same {x y : Float} (same : (x == y) = true) (nonzero : (y == 0) = false) :
    Amounts (x / y) 1 := by
  rcases beq_iff.1 same with ⟨s, t, -, zero⟩ | ⟨s, first, second⟩ | ⟨s, m, e, positive, first, second⟩
  · rw [zero_iff.2 ⟨t, zero⟩] at nonzero
    cases nonzero
  · refine .inr (undefined_iff.2 ?_)
    rw [unpacked_div, first, second]
    exact unpack_pack_undefined
  · left
    have unit : s / s = .positive := by cases s <;> rfl
    have exact' : unpacked (x / y) = unpacked 1 := by
      rw [unpacked_div, first, second, UnpackedFloat.div, divCore_same positive, unit]
      with_unfolding_all rfl
    rw [beq_iff, exact']
    exact .inr (.inr ⟨_, _, _, _, rfl, rfl⟩)

/-! ### Powers -/

/-- What the numeric library guarantees of powers: those of zero are zero, infinite or undefined,
those of one are one, and those with an undefined part undefined, but for the powers of one and the
power zero. -/
structure Powers : Prop where
  zero_power : ∀ {b x : Float}, (b == 0) = true → Vanishing x →
    Amounts (Float.pow b x) 0 ∨ (x.isFinite = true ∧ (Float.pow b x).isInf = true)
  one_power : ∀ {b : Float} (x : Float), (b == 1) = true → (Float.pow b x == 1) = true
  undefined_power : ∀ {b x : Float}, Undefined b → (x == 0) = false → Undefined (Float.pow b x)
  power_undefined : ∀ (b : Float) {x : Float}, Undefined x → Amounts (Float.pow b x) 1

theorem power_of_proper {b x : Float}
    (proper : (b.isFinite && x.isFinite && (Float.pow b x).isInf) = false) :
    Scalar.power b x = Float.pow b x := by
  show power b x = _
  unfold power
  dsimp only
  rw [proper, if_neg Bool.false_ne_true]

theorem undefined_undefined : Undefined (undefined : Float) :=
  undefined_iff.2 (by with_unfolding_all rfl)

theorem isFinite_of_undefined {x : Float} (undefined : Undefined x) : x.isFinite = false := by
  show (unpacked x).isFinite = false
  rw [undefined_iff.1 undefined]
  rfl

theorem isInf_of_one {x : Float} (one : (x == 1) = true) : x.isInf = false := by
  have unit : ∃ s m e h, unpacked 1 = .finite s m e h := ⟨_, _, _, _, by with_unfolding_all rfl⟩
  obtain ⟨s, m, e, h, unit⟩ := unit
  show (unpacked x).isInf = false
  rcases beq_iff.1 one with ⟨s, t, first, -⟩ | ⟨s, -, second⟩ | ⟨s, m, e, positive, first, -⟩
  · rw [first]
    rfl
  · rw [unit] at second
    cases second
  · rw [first]
    rfl

/-- Binary64 numbers are lossy scalars, if the powers of the numeric library are as its standard
has them. -/
theorem lossy (powers : Powers) : LossyScalar Float where
  symm same := by
    rw [beq_iff] at same ⊢
    rcases same with ⟨s, t, first, second⟩ | ⟨s, first, second⟩ | ⟨s, m, e, h, first, second⟩
    · exact .inl ⟨t, s, second, first⟩
    · exact .inr (.inl ⟨s, second, first⟩)
    · exact .inr (.inr ⟨s, m, e, h, second, first⟩)
  trans := by
    intro x y z same next
    rw [beq_iff] at same next ⊢
    rcases same with ⟨s, t, first, second⟩ | ⟨s, first, second⟩ | ⟨s, m, e, h, first, second⟩ <;>
      rw [second] at next
    · rcases next with ⟨_, u, -, third⟩ | ⟨_, ⟨⟩, -⟩ | ⟨_, _, _, _, ⟨⟩, -⟩
      exact .inl ⟨s, u, first, third⟩
    · rcases next with ⟨_, _, ⟨⟩, -⟩ | ⟨_, ⟨⟩, third⟩ | ⟨_, _, _, _, ⟨⟩, -⟩
      exact .inr (.inl ⟨s, first, third⟩)
    · rcases next with ⟨_, _, ⟨⟩, -⟩ | ⟨_, ⟨⟩, -⟩ | ⟨_, _, _, _, ⟨⟩, third⟩
      exact .inr (.inr ⟨s, m, e, h, first, third⟩)
  one_beq_one := by decide +kernel
  undefined := undefined_undefined
  zero_mul := zero_mul
  mul_zero := mul_zero
  zero_div zero _ := zero_div _ zero
  div_same := div_same
  zero_power := by
    intro b x zero vanishing
    have base : b.isFinite = true := by
      obtain ⟨s, signed⟩ := zero_iff.1 zero
      show (unpacked b).isFinite = true
      rw [signed]
      rfl
    show Amounts (power b x) 0
    unfold power
    dsimp only
    split
    · exact .inr undefined_undefined
    · rename_i proper
      rcases powers.zero_power zero vanishing with amounts | ⟨finite, infinite⟩
      · exact amounts
      · rw [base, finite, infinite] at proper
        exact absurd rfl proper
  one_power x one := by
    have unit := powers.one_power x one
    rw [power_of_proper (by rw [isInf_of_one unit, Bool.and_false])]
    exact .inl unit
  undefined_power none nonzero := by
    rw [power_of_proper (by rw [isFinite_of_undefined none, Bool.false_and, Bool.false_and])]
    exact powers.undefined_power none nonzero
  power_undefined b _ none := by
    rw [power_of_proper (by rw [isFinite_of_undefined none, Bool.and_false, Bool.false_and])]
    exact powers.power_undefined b none

end SymbolicAlgebra.Binary64
