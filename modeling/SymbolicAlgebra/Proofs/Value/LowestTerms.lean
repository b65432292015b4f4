/-
  Lowest terms
  ============
  The rational numbers a third time, with the places of their decimal fractions: a number
  has `k` places when ten to the power `k` scales it to a whole number, and it is written
  with the fewest that it has. These are the numbers on which reducing a fraction does
  what its name says, scaling included (**`DecimalRational.reduceFraction_lowest`**).

  Parts with at most nine places become coprime whole numbers, the lower one positive. A
  fraction with a longer part only has its sign moved. Either way a second reduction
  changes nothing.
-/
import SymbolicAlgebra.Proofs.Steady.Rational

namespace SymbolicAlgebra

/-- A rational number is scaled to a whole one by the multiples of its denominator. -/
theorem Rational.scales_iff (x : ℚ) (k : ℕ) : (∃ z : ℤ, x * 10 ^ k = z) ↔ x.den ∣ 10 ^ k := by
  constructor
  · rintro ⟨z, scaled⟩
    have crossed : (x.num : ℚ) * 10 ^ k = z * x.den := by
      calc (x.num : ℚ) * 10 ^ k = x * x.den * 10 ^ k := by rw [x.mul_den_eq_num]
        _ = x * 10 ^ k * x.den := by ring
        _ = z * x.den := by rw [scaled]
    have divides : (x.den : ℤ) ∣ x.num * 10 ^ k := by
      refine ⟨z, ?_⟩
      rw [mul_comm (x.den : ℤ)]
      exact_mod_cast crossed
    have natural := Int.natAbs_dvd_natAbs.2 divides
    rw [Int.natAbs_natCast, Int.natAbs_mul, Int.natAbs_pow] at natural
    exact (Nat.Coprime.symm x.reduced).dvd_of_dvd_mul_left natural
  · rintro ⟨q, split⟩
    have tens : (10 : ℚ) ^ k = x.den * q := by exact_mod_cast split
    refine ⟨x.num * q, ?_⟩
    rw [tens, ← mul_assoc, x.mul_den_eq_num]
    push_cast
    rfl

/-- Stripping leaves no zero at the end. -/
theorem Decimal.strippedZeros_ending {c : ℕ} {e : ℤ} (nonzero : c ≠ 0) :
    (strippedZeros c e).1 % 10 ≠ 0 := by
  fun_induction strippedZeros c e with
  | case1 c e zeros ih => exact ih (by omega)
  | case2 c e last =>
    intro zero
    exact last ⟨nonzero, zero⟩

/-- A decimal is scaled to a whole number by the tens that move its last digit before the point. -/
theorem Decimal.scales_iff {d : Decimal} (nonzero : d.coefficient ≠ 0) (k : ℕ) :
    (∃ z : ℤ, (d.coefficient * 10 ^ d.exponent : ℚ) * 10 ^ k = z) ↔ d.places ≤ k := by
  obtain ⟨j, coefficient, exponent⟩ := d.value_reduced
  have ending : d.reduced.coefficient % 10 ≠ 0 := strippedZeros_ending nonzero
  have ten : (10 : ℚ) ≠ 0 := by norm_num
  have scaled : (d.coefficient * 10 ^ d.exponent : ℚ) * 10 ^ k =
      d.reduced.coefficient * 10 ^ (d.reduced.exponent + k) := by
    rw [← coefficient, exponent, zpow_add₀ ten, zpow_add₀ ten, zpow_natCast, zpow_natCast]
    push_cast
    ring
  have count : d.places ≤ k ↔ 0 ≤ d.reduced.exponent + k := by
    rw [places]
    omega
  rw [count, scaled]
  constructor
  · rintro ⟨z, whole⟩
    by_contra short
    -- the last digit is left behind the point
    obtain ⟨m, shift⟩ := Int.eq_ofNat_of_zero_le (a := -(d.reduced.exponent + k) - 1) (by omega)
    have exponent' : d.reduced.exponent + k = -((m + 1 : ℕ) : ℤ) := by
      push_cast
      omega
    rw [exponent', zpow_neg, zpow_natCast, ← div_eq_mul_inv, div_eq_iff (pow_ne_zero _ ten)] at whole
    have tens : (d.reduced.coefficient : ℤ) = z * 10 ^ m * 10 := by
      rw [mul_assoc, ← pow_succ]
      exact_mod_cast whole
    omega
  · intro enough
    obtain ⟨m, rest⟩ := Int.eq_ofNat_of_zero_le enough
    refine ⟨d.reduced.coefficient * 10 ^ m, ?_⟩
    rw [rest, zpow_natCast]
    push_cast
    rfl

/-- Rational numbers with the places of their decimal fractions. -/
def DecimalRational : Type := ℚ

namespace DecimalRational

instance : Field DecimalRational := inferInstanceAs (Field ℚ)

instance : LinearOrder DecimalRational := inferInstanceAs (LinearOrder ℚ)

instance : IsStrictOrderedRing DecimalRational := inferInstanceAs (IsStrictOrderedRing ℚ)

/-- The denominator in lowest terms. -/
def den (x : DecimalRational) : ℕ := Rat.den x

/-- The fewest places with which the number is written. A number that no places suffice for has
as many as the bound. -/
def places (x : DecimalRational) : ℕ :=
  ((List.range (x.den.log2 + 1)).find? fun k => decide (x.den ∣ 10 ^ k)).getD Scalar.maxPlaces

/-- The nearest whole number, a half going to the even one. -/
def nearest (x : ℚ) : ℤ :=
  if x - ⌊x⌋ < 1 / 2 then ⌊x⌋
  else if 1 / 2 < x - ⌊x⌋ then ⌊x⌋ + 1
  else if ⌊x⌋ % 2 = 0 then ⌊x⌋ else ⌊x⌋ + 1

instance : FieldScalar DecimalRational where
  toField := inferInstance
  beq x y := decide (x = y)
  lt x y := decide (x < y)
  isFinite _ := true
  isWhole x := x.den == 1
  toInt := Rat.num
  ofInt z := (z : ℚ)
  ofDecimal d := (d.coefficient * 10 ^ d.exponent : ℚ)
  places := places
  nearestWhole x := some (nearest x : ℚ)
  power := Scalar.power (α := ℚ)
  undefined := 0
  constant := Scalar.constant (α := ℚ)
  unary := Rational.unary
  binary := Rational.binary
  text := Scalar.text (α := ℚ)
  zero_beq_zero := by decide
  eq_of_beq := by simp
  rfl := by simp

/-! ### Places -/

/-- The number is whole once it is scaled by that many tens. -/
def HasPlaces (k : ℕ) (x : DecimalRational) : Prop := ∃ z : ℤ, x * 10 ^ k = z

theorem hasPlaces_iff {k : ℕ} {x : DecimalRational} : HasPlaces k x ↔ x.den ∣ 10 ^ k :=
  Rational.scales_iff x k

/-- What divides a power of ten divides the power to its logarithm. -/
theorem dvd_pow_log2 {d k : ℕ} (divides : d ∣ 10 ^ k) : d ∣ 10 ^ d.log2 := by
  induction d using Nat.strongRecOn with
  | ind d ih =>
    by_cases one : d = 1
    · rw [one]
      exact one_dvd _
    · have positive : 0 < d := Nat.pos_of_dvd_of_pos divides (by positivity)
      -- a factor in common with ten leaves a smaller divisor
      have shared : d.gcd 10 ≠ 1 := by
        intro coprime
        exact one (Nat.Coprime.eq_one_of_dvd (Nat.Coprime.pow_right k coprime) divides)
      obtain ⟨m, split⟩ := Nat.gcd_dvd_left d 10
      have factor : 2 ≤ d.gcd 10 := by
        have nonzero : 0 < d.gcd 10 := Nat.gcd_pos_of_pos_left 10 positive
        omega
      have left : 0 < m := by
        rcases Nat.eq_zero_or_pos m with none | some
        · rw [none, Nat.mul_zero] at split
          omega
        · exact some
      have doubled : 2 * m ≤ d := by
        calc 2 * m ≤ d.gcd 10 * m := Nat.mul_le_mul_right m factor
          _ = d := split.symm
      have shorter : m.log2 + 1 ≤ d.log2 := by
        rw [Nat.le_log2 positive.ne', Nat.pow_succ, Nat.mul_comm]
        exact (Nat.mul_le_mul_left 2 (Nat.log2_self_le left.ne')).trans doubled
      have rest : m ∣ 10 ^ m.log2 := by
        apply ih m (by omega)
        exact (Dvd.intro_left (d.gcd 10) split.symm).trans divides
      have tens : d ∣ 10 * 10 ^ m.log2 := by
        have product := Nat.mul_dvd_mul (Nat.gcd_dvd_right d 10) rest
        rwa [← split] at product
      rw [← Nat.pow_succ'] at tens
      exact tens.trans (Nat.pow_dvd_pow 10 shorter)

theorem hasPlaces_mono {k l : ℕ} {x : DecimalRational} (few : HasPlaces k x) (le : k ≤ l) :
    HasPlaces l x :=
  hasPlaces_iff.2 ((hasPlaces_iff.1 few).trans (Nat.pow_dvd_pow 10 le))

/-- A decimal fraction is written with the fewest places that it has. -/
theorem places_le_iff {x : DecimalRational} (decimal : ∃ k, HasPlaces k x) (k : ℕ) :
    x.places ≤ k ↔ HasPlaces k x := by
  obtain ⟨m, finite⟩ := decimal
  have bounded := dvd_pow_log2 (hasPlaces_iff.1 finite)
  obtain ⟨l, found⟩ : ∃ l, (List.range (x.den.log2 + 1)).find?
      (fun k => decide (x.den ∣ 10 ^ k)) = some l := by
    apply Option.isSome_iff_exists.1
    rw [List.find?_isSome]
    exact ⟨x.den.log2, List.mem_range.2 (Nat.lt_succ_self _), decide_eq_true bounded⟩
  have counted : x.places = l := by rw [places, found, Option.getD_some]
  obtain ⟨divides, -, fewer⟩ := List.find?_range_eq_some.1 found
  have enough : HasPlaces l x := hasPlaces_iff.2 (of_decide_eq_true divides)
  rw [counted]
  constructor
  · intro le
    exact hasPlaces_mono enough le
  · intro has
    by_contra less
    have missed := fewer k (not_le.1 less)
    simp [hasPlaces_iff.1 has] at missed

/-- Below the bound a number has the places that it is written with, decimal fraction or not. -/
theorem places_le_iff_of_lt {x : DecimalRational} {k : ℕ} (few : k < Scalar.maxPlaces) :
    x.places ≤ k ↔ HasPlaces k x := by
  by_cases decimal : ∃ k, HasPlaces k x
  · exact places_le_iff decimal k
  · have none : (List.range (x.den.log2 + 1)).find?
        (fun k => decide (x.den ∣ 10 ^ k)) = none := by
      rw [List.find?_eq_none]
      intro l _ divides
      exact decimal ⟨l, hasPlaces_iff.2 (of_decide_eq_true divides)⟩
    have counted : x.places = Scalar.maxPlaces := by rw [places, none, Option.getD_none]
    constructor
    · intro le
      omega
    · intro has
      exact absurd ⟨k, has⟩ decimal

/-- A decimal is written with its digits after the point, zeros at its end aside. -/
theorem places_ofDecimal {d : Decimal} (nonzero : d.coefficient ≠ 0) :
    (Scalar.ofDecimal d : DecimalRational).places = d.places := by
  have counted : ∀ k : ℕ, HasPlaces k (Scalar.ofDecimal d) ↔ d.places ≤ k :=
    Decimal.scales_iff nonzero
  apply eq_of_forall_ge_iff
  intro k
  rw [places_le_iff ⟨_, (counted d.places).2 le_rfl⟩, counted]

theorem hasPlaces_neg {k : ℕ} {x : DecimalRational} : HasPlaces k (-x) ↔ HasPlaces k x := by
  have turned : ∀ y : DecimalRational, HasPlaces k y → HasPlaces k (-y) := by
    rintro y ⟨z, scaled⟩
    refine ⟨-z, ?_⟩
    rw [neg_mul, scaled, Int.cast_neg]
  constructor
  · intro has
    rw [← neg_neg x]
    exact turned _ has
  · exact turned x

theorem hasPlaces_cast (k : ℕ) (z : ℤ) : HasPlaces k (z : DecimalRational) :=
  ⟨z * 10 ^ k, by push_cast; rfl⟩

theorem nearest_cast (z : ℤ) : nearest (z : ℚ) = z := by
  rw [nearest, Int.floor_intCast, sub_self, if_pos (by norm_num)]

/-- The places that a fraction is scaled by stay below the bound just if nine suffice for both
parts. -/
theorem digits_lt_iff {n d : DecimalRational} :
    max (Scalar.decimalPlaces n) (Scalar.decimalPlaces d) < Scalar.maxPlaces ↔
      HasPlaces 9 n ∧ HasPlaces 9 d := by
  have short : ∀ x : DecimalRational, Scalar.decimalPlaces x < Scalar.maxPlaces ↔ HasPlaces 9 x := by
    intro x
    rw [← places_le_iff_of_lt (by decide)]
    show min x.places 10 < 10 ↔ x.places ≤ 9
    omega
  rw [max_lt_iff, short, short]

/-! ### Reducing -/

/-- Scaling whole parts by more tens leaves whole numbers. -/
theorem scaled_cast {k : ℕ} {x : DecimalRational} {z : ℤ} (scaled : x * 10 ^ k = z) :
    Scalar.scaled (Scalar.ofInt (10 ^ k)) x = .ok (z : DecimalRational) := by
  have product : x * Scalar.ofInt (10 ^ k) = (z : DecimalRational) := by
    rw [← scaled]
    congr 1
    show (((10 ^ k : ℤ) : ℚ)) = 10 ^ k
    push_cast
    rfl
  have whole : Scalar.nearestWhole (z : DecimalRational) = some (z : DecimalRational) :=
    congrArg (fun w : ℤ => some (w : ℚ)) (nearest_cast z)
  rw [Scalar.scaled, product, whole]

/-- Whole numbers over a positive one are divided until they have no common factor. -/
theorem lowestTerms_spec (p : ℤ) {q : ℤ} (positive : 0 < q) :
    ∃ a b : ℤ, Scalar.lowestTerms (p : DecimalRational) (q : DecimalRational) =
      ((a : DecimalRational), (b : DecimalRational)) ∧
      0 < b ∧ Int.gcd a b = 1 ∧ a * q = p * b := by
  have divisor : 0 < Int.gcd p q := by
    apply Nat.pos_of_ne_zero
    intro none
    exact positive.ne' (Int.gcd_eq_zero_iff.1 none).2
  obtain ⟨a, above⟩ := Int.gcd_dvd_left p q
  obtain ⟨b, below⟩ := Int.gcd_dvd_right p q
  have nonzero : (Int.gcd p q : ℤ) ≠ 0 := by omega
  have first : p / Int.gcd p q = a := Int.ediv_eq_of_eq_mul_right nonzero above
  have second : q / Int.gcd p q = b := Int.ediv_eq_of_eq_mul_right nonzero below
  refine ⟨a, b, ?_, ?_, ?_, ?_⟩
  · rw [← first, ← second]
    exact Rational.lowestTerms_cast p positive
  · rw [← second]
    exact Int.ediv_pos_of_pos_of_dvd positive (by omega) (Int.gcd_dvd_right p q)
  · rw [← first, ← second]
    exact Int.gcd_ediv_gcd_ediv_gcd divisor
  · calc a * q = a * (Int.gcd p q * b) := by rw [← below]
      _ = Int.gcd p q * a * b := by ring
      _ = p * b := by rw [← above]

/-- A fraction is not scaled if nine places do not suffice for its parts. -/
theorem reduceFraction_long {n d : DecimalRational} (positive : 0 < d)
    (long : ¬ (HasPlaces 9 n ∧ HasPlaces 9 d)) : Scalar.reduceFraction n d = .ok (n, d) := by
  have defined : ¬ (!(Scalar.isFinite n && Scalar.isFinite d) || d == 0) = true := by
    simp [Scalar.isFinite, positive.ne']
  have upright : ¬ Scalar.lt d 0 = true := by
    intro below
    exact absurd (of_decide_eq_true below) (not_lt.2 positive.le)
  rw [← digits_lt_iff, not_lt] at long
  rw [Scalar.reduceFraction, if_neg defined, if_neg upright]
  exact if_pos long

/-- A fraction for whose parts nine places suffice is scaled to whole numbers, without any
rounding. -/
theorem reduceFraction_scales {n d : DecimalRational} (positive : 0 < d)
    (short : HasPlaces 9 n ∧ HasPlaces 9 d) :
    ∃ p q : ℤ, 0 < q ∧ n * q = p * d ∧
      Scalar.reduceFraction n d = .ok (Scalar.lowestTerms (p : DecimalRational) q) := by
  have defined : ¬ (!(Scalar.isFinite n && Scalar.isFinite d) || d == 0) = true := by
    simp [Scalar.isFinite, positive.ne']
  have upright : ¬ Scalar.lt d 0 = true := by
    intro below
    exact absurd (of_decide_eq_true below) (not_lt.2 positive.le)
  have below_bound := digits_lt_iff.2 short
  have written : ∀ x : DecimalRational,
      Scalar.decimalPlaces x ≤ max (Scalar.decimalPlaces n) (Scalar.decimalPlaces d) →
        HasPlaces (max (Scalar.decimalPlaces n) (Scalar.decimalPlaces d)) x := by
    intro x le
    apply (places_le_iff_of_lt below_bound).1
    have small : min x.places Scalar.maxPlaces < Scalar.maxPlaces := lt_of_le_of_lt le below_bound
    have same : Scalar.decimalPlaces x = x.places := by
      show min x.places Scalar.maxPlaces = x.places
      omega
    rwa [same] at le
  obtain ⟨p, above⟩ := written n (le_max_left _ _)
  obtain ⟨q, below⟩ := written d (le_max_right _ _)
  rw [Scalar.reduceFraction, if_neg defined, if_neg upright]
  dsimp only
  rw [if_neg (not_le.2 below_bound)]
  generalize max (Scalar.decimalPlaces n) (Scalar.decimalPlaces d) = digits at above below
  have tens : (0 : DecimalRational) < 10 ^ digits := by positivity
  refine ⟨p, q, ?_, ?_, ?_⟩
  · have scaled : (0 : DecimalRational) < q := below ▸ mul_pos positive tens
    exact_mod_cast scaled
  · rw [← above, ← below]
    ring
  · split
    · rename_i none
      rw [none, pow_zero, mul_one] at above below
      rw [above, below]
    · rw [scaled_cast above, scaled_cast below]
      rfl

/-- Such a fraction comes to coprime whole numbers. -/
theorem reduceFraction_short {n d : DecimalRational} (positive : 0 < d)
    (short : HasPlaces 9 n ∧ HasPlaces 9 d) :
    ∃ a b : ℤ, Scalar.reduceFraction n d = .ok ((a : DecimalRational), (b : DecimalRational)) ∧
      0 < b ∧ Int.gcd a b = 1 ∧ a * d = n * b := by
  obtain ⟨p, q, above, quotient, scaled⟩ := reduceFraction_scales positive short
  obtain ⟨a, b, lowest, below, coprime, same⟩ := lowestTerms_spec p above
  refine ⟨a, b, by rw [scaled, lowest], below, coprime, ?_⟩
  have nonzero : (q : DecimalRational) ≠ 0 := by exact_mod_cast above.ne'
  have same' : (a : DecimalRational) * q = p * b := by exact_mod_cast same
  apply mul_right_cancel₀ nonzero
  calc (a : DecimalRational) * d * q = a * q * d := by ring
    _ = p * b * d := by rw [same']
    _ = p * d * b := by ring
    _ = n * q * b := by rw [quotient]
    _ = n * b * q := by ring

/-- Coprime whole numbers are kept: a quotient has one fraction in lowest terms. -/
theorem reduceFraction_coprime {a b : ℤ} (positive : 0 < b) (coprime : Int.gcd a b = 1) :
    Scalar.reduceFraction (a : DecimalRational) (b : DecimalRational) =
      .ok ((a : DecimalRational), (b : DecimalRational)) := by
  have above : (0 : DecimalRational) < b := by exact_mod_cast positive
  obtain ⟨a', b', reduced, positive', coprime', same⟩ :=
    reduceFraction_short above ⟨hasPlaces_cast 9 a, hasPlaces_cast 9 b⟩
  have crossed : a' * b = a * b' := by exact_mod_cast same
  have quotient : (a' : ℚ) / (b' : ℚ) = (a : ℚ) / (b : ℚ) := by
    rw [div_eq_div_iff (by exact_mod_cast positive'.ne') (by exact_mod_cast positive.ne')]
    exact_mod_cast crossed
  obtain ⟨rfl, rfl⟩ := Rat.div_int_inj positive' positive coprime' coprime quotient
  exact reduced

/-- The sign moves first. -/
theorem reduceFraction_neg {n d : DecimalRational} (negative : d < 0) :
    Scalar.reduceFraction n d = Scalar.reduceFraction (-n) (-d) := by
  have upright : ¬ Scalar.lt (-d) 0 = true := by
    intro below
    exact absurd (of_decide_eq_true below) (not_lt.2 (neg_nonneg.2 negative.le))
  have inverted : Scalar.lt d 0 = true := decide_eq_true negative
  have nonzero : (d == 0) = false := beq_false_of_ne negative.ne
  have nonzero' : (-d == 0) = false := beq_false_of_ne (neg_ne_zero.2 negative.ne)
  rw [Scalar.reduceFraction, Scalar.reduceFraction, if_pos inverted, if_neg upright, nonzero,
    nonzero']
  rfl

/-- Reducing a fraction whose lower part is not zero gives lowest terms without a change of the
quotient. If nine places suffice for both parts, the result is a pair of coprime whole numbers over
a positive one; if a part has more, only the sign is moved to where the lower part is positive.
Reducing the result again changes nothing. -/
theorem reduceFraction_lowest {n d : DecimalRational} (nonzero : d ≠ 0) :
    ∃ m c : DecimalRational,
      Scalar.reduceFraction n d = .ok (m, c) ∧
      Scalar.reduceFraction m c = .ok (m, c) ∧
      (HasPlaces 9 n ∧ HasPlaces 9 d →
        ∃ a b : ℤ, m = a ∧ c = b ∧ 0 < b ∧ Int.gcd a b = 1 ∧ m * d = n * c) ∧
      (¬ (HasPlaces 9 n ∧ HasPlaces 9 d) → (m, c) = if d < 0 then (-n, -d) else (n, d)) := by
  obtain ⟨n', d', turned, positive, moved⟩ : ∃ n' d' : DecimalRational,
      (n', d') = (if d < 0 then (-n, -d) else (n, d)) ∧ 0 < d' ∧
        Scalar.reduceFraction n d = Scalar.reduceFraction n' d' := by
    split
    · rename_i negative
      exact ⟨-n, -d, rfl, neg_pos.2 negative, reduceFraction_neg negative⟩
    · rename_i upright
      exact ⟨n, d, rfl, lt_of_le_of_ne (not_lt.1 upright) nonzero.symm, rfl⟩
  have parts : (HasPlaces 9 n' ↔ HasPlaces 9 n) ∧ (HasPlaces 9 d' ↔ HasPlaces 9 d) ∧
      ∀ m c : DecimalRational, m * d' = n' * c → m * d = n * c := by
    split at turned
    · obtain ⟨rfl, rfl⟩ := Prod.mk.inj turned
      refine ⟨hasPlaces_neg, hasPlaces_neg, ?_⟩
      intro m c same
      rw [mul_neg, neg_mul] at same
      exact neg_injective same
    · obtain ⟨rfl, rfl⟩ := Prod.mk.inj turned
      exact ⟨Iff.rfl, Iff.rfl, fun m c same => same⟩
  obtain ⟨above, below, quotient⟩ := parts
  rw [moved, ← turned, ← above, ← below]
  by_cases short : HasPlaces 9 n' ∧ HasPlaces 9 d'
  · obtain ⟨a, b, reduced, positive', coprime, same⟩ := reduceFraction_short positive short
    refine ⟨a, b, reduced, reduceFraction_coprime positive' coprime, ?_, ?_⟩
    · intro _
      exact ⟨a, b, rfl, rfl, positive', coprime, quotient _ _ same⟩
    · intro long
      exact absurd short long
  · refine ⟨n', d', reduceFraction_long positive short, reduceFraction_long positive short, ?_, ?_⟩
    · intro fits
      exact absurd fits short
    · intro _
      rfl

/-- Fifteen hundredths over a negative quarter. -/
theorem reduceFraction_lowest_hundredths :
    let n : DecimalRational := (3 / 20 : ℚ)
    let d : DecimalRational := (-1 / 4 : ℚ)
    d ≠ 0 ∧ HasPlaces 9 n ∧ HasPlaces 9 d ∧
      ∃ m c : DecimalRational, Scalar.reduceFraction n d = .ok (m, c) ∧
        Scalar.reduceFraction m c = .ok (m, c) ∧
        ∃ a b : ℤ, m = a ∧ c = b ∧ 0 < b ∧ Int.gcd a b = 1 ∧ m * d = n * c := by
  intro n d
  have nonzero : d ≠ 0 := by
    show (-1 / 4 : ℚ) ≠ 0
    norm_num
  have above : HasPlaces 9 n := hasPlaces_iff.2 (by decide +kernel)
  have below : HasPlaces 9 d := hasPlaces_iff.2 (by decide +kernel)
  obtain ⟨m, c, reduced, again, lowest, -⟩ := reduceFraction_lowest (n := n) nonzero
  exact ⟨nonzero, above, below, m, c, reduced, again, lowest ⟨above, below⟩⟩

example : Scalar.reduceFraction (α := DecimalRational) (3 / 20 : ℚ) (-1 / 4 : ℚ) =
    .ok ((-3 : ℚ), (5 : ℚ)) := by decide +kernel

end DecimalRational

end SymbolicAlgebra
