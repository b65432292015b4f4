/-
  Fractions
  =========
  The rational numbers once more, as numbers that an expression writes: whole numbers
  are written by their digits and count as finite, since these are the ones that are
  read back. Powers to exponents that are not whole are one, and zero for a base that is
  not positive: no root is rational for all bases, and the laws of exponents do not ask
  for one.
-/
import Mathlib.Data.List.TakeWhile
import SymbolicAlgebra.Proofs.Printing.Text
import SymbolicAlgebra.Proofs.Value.Rational

namespace SymbolicAlgebra

open SymbolicAlgebra.Text

/-- Rational numbers of which the whole ones can be written. -/
def Fraction : Type := ℚ

namespace Fraction

instance : Field Fraction := inferInstanceAs (Field ℚ)

instance : LinearOrder Fraction := inferInstanceAs (LinearOrder ℚ)

instance : IsStrictOrderedRing Fraction := inferInstanceAs (IsStrictOrderedRing ℚ)

/-- The numerator in lowest terms. -/
def num (x : Fraction) : ℤ := Rat.num x

/-- Whether the denominator is one. -/
def isWhole (x : Fraction) : Bool := Rat.den x == 1

/-- The base raised to a whole exponent; a positive base to any other exponent is one. -/
def power (b x : Fraction) : Fraction := if isWhole x then b ^ num x else if 0 < b then 1 else 0

/-- The digits of a whole number, behind its sign. -/
def text (x : Fraction) : String :=
  if x < 0 then "-" ++ String.ofList (Nat.toDigits 10 (num x).natAbs)
  else String.ofList (Nat.toDigits 10 (num x).natAbs)

/-- The whole number nearest to the rational one. -/
def nearest (x : ℚ) : ℚ := round x

/-- A fraction close to the constant. -/
def constant : Constant → Fraction
  | .pi => (22 / 7 : ℚ)
  | .e => (19 / 7 : ℚ)

instance : FieldScalar Fraction where
  toField := inferInstance
  beq x y := decide (x = y)
  lt x y := decide (x < y)
  isFinite := isWhole
  isWhole := isWhole
  toInt := num
  ofInt z := (z : ℚ)
  ofDecimal d := (d.coefficient * 10 ^ d.exponent : ℚ)
  places x := if isWhole x then 0 else Scalar.maxPlaces
  nearestWhole x := some (nearest x)
  power := power
  undefined := 0
  constant := constant
  unary := Rational.unary
  binary := Rational.binary
  text := text
  zero_beq_zero := by decide
  eq_of_beq := by simp
  rfl := by simp

/-! ### Whole numbers -/

theorem isWhole_iff {x : Fraction} : isWhole x = true ↔ ∃ z : ℤ, x = z := by
  constructor
  · intro whole
    exact ⟨num x, ((Rat.den_eq_one_iff (x : ℚ)).1 (eq_of_beq whole)).symm⟩
  · rintro ⟨z, rfl⟩
    exact beq_iff_eq.2 (Rat.den_intCast z)

theorem num_cast (z : ℤ) : num (z : Fraction) = z := Rat.num_intCast z

theorem isWhole_neg {x : Fraction} (whole : isWhole x = true) : isWhole (-x) = true := by
  obtain ⟨z, rfl⟩ := isWhole_iff.1 whole
  exact isWhole_iff.2 ⟨-z, by push_cast; rfl⟩

theorem num_neg {x : Fraction} (whole : isWhole x = true) : num (-x) = -num x := by
  obtain ⟨z, rfl⟩ := isWhole_iff.1 whole
  rw [num_cast, ← num_cast (-z)]
  push_cast
  rfl

theorem isWhole_of_neg {x : Fraction} (whole : isWhole (-x) = true) : isWhole x = true := by
  rw [← neg_neg x]
  exact isWhole_neg whole

theorem power_of_whole {x : Fraction} (whole : isWhole x = true) (b : Fraction) :
    Scalar.power b x = b ^ num x := if_pos whole

theorem power_of_not_whole {x : Fraction} (part : ¬ isWhole x = true) (b : Fraction) :
    Scalar.power b x = if 0 < b then 1 else 0 := if_neg part

/-! ### Laws -/

theorem truncated_neg (x : ℚ) : Rational.truncated (-x) = -Rational.truncated x := by
  unfold Rational.truncated
  rcases lt_trichotomy x 0 with below | zero | above
  · rw [if_pos (by linarith), if_neg (by linarith), Int.floor_neg]
  · simp [zero]
  · rw [if_neg (by linarith), if_pos above.le, Int.ceil_neg]

/-- A remainder has the sign of what is divided. -/
theorem remainder_neg (x y : ℚ) :
    Rational.binary .remainder (-x) y = -Rational.binary .remainder x y := by
  show -x - y * (Rational.truncated (-x / y) : ℚ) = -(x - y * (Rational.truncated (x / y) : ℚ))
  rw [neg_div, truncated_neg]
  push_cast
  ring

instance : LawfulScalar Fraction where
  power_zero b := by
    rw [power_of_whole (isWhole_iff.2 ⟨0, by simp⟩)]
    exact zpow_zero b
  power_one b := by
    rw [power_of_whole (isWhole_iff.2 ⟨1, by simp⟩)]
    exact zpow_one b
  one_power x := by
    by_cases whole : isWhole x = true
    · rw [power_of_whole whole, one_zpow]
    · rw [power_of_not_whole whole, if_pos one_pos]
  zero_power x nonzero _ := by
    by_cases whole : isWhole x = true
    · obtain ⟨z, rfl⟩ := isWhole_iff.1 whole
      rw [power_of_whole whole, num_cast, zero_zpow]
      rintro rfl
      exact nonzero (by simp)
    · rw [power_of_not_whole whole, if_neg (lt_irrefl _)]
  neg_power b x whole := by
    rw [power_of_whole whole, power_of_whole whole]
    have signs := FieldScalar.neg_zpow (α := Fraction) whole b
    rw [show (Scalar.toInt x : ℤ) = num x from rfl] at signs
    rw [signs]
    split <;> simp
  power_neg_mul b x nonzero real := by
    by_cases whole : isWhole x = true
    · rw [power_of_whole whole, power_of_whole (isWhole_neg whole), num_neg whole, zpow_neg]
      exact inv_mul_cancel₀ (zpow_ne_zero _ nonzero)
    · have positive : 0 < b := by
        refine lt_of_le_of_ne (not_lt.1 fun below => whole ?_) (Ne.symm nonzero)
        exact real (decide_eq_true below)
      rw [power_of_not_whole whole, power_of_not_whole fun h => whole (isWhole_of_neg h),
        if_pos positive, one_mul]
  isWhole_one := isWhole_iff.2 ⟨1, by simp⟩
  isWhole_neg _ := isWhole_neg
  neg_remainder := remainder_neg
  one_lt_zero := decide_eq_false (not_lt.2 zero_le_one)

theorem isFinite_eq (x : Fraction) : Scalar.isFinite x = isWhole x := rfl

theorem places_of_whole {x : Fraction} (whole : isWhole x = true) : Scalar.decimalPlaces x = 0 := by
  show min (if isWhole x then 0 else Scalar.maxPlaces) Scalar.maxPlaces = 0
  rw [if_pos whole, Nat.zero_min]

instance : ExactScalar Fraction where
  toCharZero := inferInstance
  isWhole_iff _ := isWhole_iff
  toInt_cast := num_cast
  ofInt_cast _ := rfl
  lt_cast w z := by
    show decide ((w : Fraction) < z) = decide (w < z)
    simp
  power_cast x z _ := by
    rw [power_of_whole (isWhole_iff.2 ⟨z, rfl⟩), num_cast]
  reduceFraction_keeps n d nonzero := by
    unfold Scalar.reduceFraction
    by_cases whole : isWhole n = true ∧ isWhole d = true
    · obtain ⟨above, below⟩ := whole
      have signed : ∃ m c : Fraction, (if Scalar.lt d 0 = true then (-n, -d) else (n, d)) = (m, c) ∧
          isWhole m = true ∧ isWhole c = true ∧ c ≠ 0 ∧ m / c = n / d := by
        split
        · exact ⟨-n, -d, rfl, isWhole_neg above, isWhole_neg below, neg_ne_zero.2 nonzero,
            neg_div_neg_eq n d⟩
        · exact ⟨n, d, rfl, above, below, nonzero, rfl⟩
      obtain ⟨m, c, same, above', below', nonzero', quotient⟩ := signed
      have finite : (!(Scalar.isFinite n && Scalar.isFinite d) || d == 0) = false := by
        rw [isFinite_eq, isFinite_eq, above, below, beq_false_of_ne nonzero]
        rfl
      obtain ⟨kept, lowest⟩ := FieldScalar.lowestTerms_keeps (fun _ => rfl) m nonzero'
      rw [finite, if_neg (by simp), same]
      dsimp only
      rw [places_of_whole above', places_of_whole below', if_neg (by decide), if_pos (Nat.max_self 0)]
      exact ⟨_, _, rfl, kept, lowest.trans quotient⟩
    · have infinite : (!(Scalar.isFinite n && Scalar.isFinite d) || d == 0) = true := by
        have parts : (isWhole n && isWhole d) = false := by simpa using whole
        rw [isFinite_eq, isFinite_eq, parts]
        rfl
      rw [if_pos infinite]
      exact ⟨n, d, rfl, nonzero, rfl⟩

/-! ### Digits -/

theorem isWhole_power {b x : Fraction} (hb : isWhole b = true) (hx : isWhole x = true)
    (nonnegative : ¬ x < 0) : isWhole (Scalar.power b x) = true := by
  obtain ⟨m, rfl⟩ := isWhole_iff.1 hb
  obtain ⟨z, rfl⟩ := isWhole_iff.1 hx
  rw [power_of_whole hx, num_cast]
  obtain ⟨k, rfl⟩ := Int.eq_ofNat_of_zero_le (a := z) (by simpa using nonnegative)
  exact isWhole_iff.2 ⟨m ^ k, by simp⟩

/-- The digits of a natural number are a numeral for it. -/
theorem numeral?_digits (k : Nat) :
    '\n' ∉ (String.ofList (Nat.toDigits 10 k)).toList ∧
      (⟨String.ofList (Nat.toDigits 10 k)⟩ : Symbol).numeral? = some ⟨k, 0⟩ := by
  have decimals : ∀ d ∈ Nat.toDigits 10 k, isDecimal d = true := by
    intro d hd
    rw [isDecimal, digitValue?_of_isDigit (Nat.isDigit_of_mem_toDigits (by decide) (by decide) hd)]
    rfl
  have single : '\n' ∉ (String.ofList (Nat.toDigits 10 k)).toList := by
    rw [String.toList_ofList]
    intro inside
    exact absurd (decimals _ inside) (by decide)
  have taken : (Nat.toDigits 10 k).takeWhile isDecimal = Nat.toDigits 10 k :=
    List.takeWhile_eq_self_iff.2 decimals
  have dropped : (Nat.toDigits 10 k).dropWhile isDecimal = [] :=
    List.dropWhile_eq_nil_iff.2 decimals
  refine ⟨single, ?_⟩
  rw [Symbol.numeral?, withoutLineEnd_eq_self single, String.toList_ofList]
  simp only [taken, dropped]
  rw [if_neg (by simp [Nat.toDigits_ne_nil]), Decimal.ofDigits_toDigits]

theorem text_cast (k : Nat) : text (k : ℤ) = String.ofList (Nat.toDigits 10 k) := by
  unfold text
  rw [if_neg (by simp), num_cast]
  rfl

instance : ReadableScalar Fraction where
  finite_one := isWhole_iff.2 ⟨1, by simp⟩
  finite_neg := isWhole_neg
  finite_mul := by
    intro x y hx hy
    obtain ⟨m, rfl⟩ := isWhole_iff.1 hx
    obtain ⟨k, rfl⟩ := isWhole_iff.1 hy
    exact isWhole_iff.2 ⟨m * k, by simp⟩
  finite_power hb hx nonnegative := isWhole_power hb hx (of_decide_eq_false nonnegative)
  neg_lt_zero negative := by
    have below := of_decide_eq_true negative
    exact decide_eq_false (not_lt.2 (neg_nonneg.2 below.le))
  text_numeral := by
    intro x whole nonnegative
    obtain ⟨z, rfl⟩ := isWhole_iff.1 whole
    obtain ⟨k, rfl⟩ := Int.eq_ofNat_of_zero_le (a := z)
      (by simpa using of_decide_eq_false nonnegative)
    obtain ⟨single, read⟩ := numeral?_digits k
    show '\n' ∉ (text (k : ℤ)).toList ∧ _
    rw [show Scalar.text ((k : ℤ) : Fraction) = text (k : ℤ) from rfl, text_cast]
    refine ⟨single, _, read, ?_⟩
    show ((k : ℚ) * 10 ^ (0 : ℤ)) = ((k : ℤ) : ℚ)
    simp
  text_negative := by
    intro x whole negative
    have below : x < 0 := of_decide_eq_true negative
    show text x = "-" ++ text (-x)
    unfold text
    rw [if_pos below, if_neg (not_lt.2 (neg_nonneg.2 below.le)), num_neg whole, Int.natAbs_neg]

end Fraction

end SymbolicAlgebra
