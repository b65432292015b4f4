/-
  Rational numbers come to lowest terms at once
  =============================================
  The order of the rational numbers is linear, and a fraction of them is either left as
  it is or divided by its greatest common factor, after which the factor is one.
-/
import SymbolicAlgebra.Proofs.Steady.Factor
import SymbolicAlgebra.Proofs.Value.Rational

namespace SymbolicAlgebra.Rational

theorem decimalPlaces_eq (x : ℚ) :
    Scalar.decimalPlaces x = if x.den = 1 then 0 else Scalar.maxPlaces := by
  show min (if x.den = 1 then 0 else Scalar.maxPlaces) Scalar.maxPlaces = _
  split
  · rfl
  · exact Nat.min_self _

/-- Over a positive denominator, whole parts are divided by their common factor and other parts are
left alone. -/
theorem reduceFraction_positive (n : ℚ) {d : ℚ} (positive : 0 < d) :
    Scalar.reduceFraction n d =
      .ok (if n.den = 1 ∧ d.den = 1 then Scalar.lowestTerms n d else (n, d)) := by
  have sign : Scalar.lt d 0 = false := decide_eq_false (not_lt.2 positive.le)
  have defined : ¬ (!(Scalar.isFinite n && Scalar.isFinite d) || d == 0) = true := by
    simp [Scalar.isFinite, positive.ne']
  unfold Scalar.reduceFraction
  rw [if_neg defined, sign, if_neg (by simp)]
  dsimp only
  rw [decimalPlaces_eq, decimalPlaces_eq]
  by_cases whole : n.den = 1 ∧ d.den = 1
  · rw [if_pos whole.1, if_pos whole.2, if_pos whole]
    rfl
  · have large : Scalar.maxPlaces ≤ max (if n.den = 1 then 0 else Scalar.maxPlaces)
        (if d.den = 1 then 0 else Scalar.maxPlaces) := by
      by_cases left : n.den = 1
      · rw [if_neg fun right => whole ⟨left, right⟩]
        exact le_max_right _ _
      · rw [if_neg left]
        exact le_max_left _ _
    rw [if_pos large, if_neg whole]

/-- Whole numbers are divided by their greatest common divisor. -/
theorem lowestTerms_cast (p : ℤ) {q : ℤ} (positive : 0 < q) :
    Scalar.lowestTerms (p : ℚ) (q : ℚ) =
      (((p / Int.gcd p q : ℤ) : ℚ), ((q / Int.gcd p q : ℤ) : ℚ)) := by
  have divisor : Int.gcd p q ≠ 0 := fun none => positive.ne' (Int.gcd_eq_zero_iff.1 none).2
  have factor : Scalar.commonFactor (p : ℚ) (q : ℚ) = ((Int.gcd p q : ℤ) : ℚ) := by
    unfold Scalar.commonFactor
    rw [if_pos (by simp)]
    exact if_neg divisor
  have nonzero : ((Int.gcd p q : ℤ) : ℚ) ≠ 0 := Int.cast_ne_zero.2 (Int.natCast_ne_zero.2 divisor)
  rw [Scalar.lowestTerms, factor, Int.cast_div (Int.gcd_dvd_left p q) nonzero,
    Int.cast_div (Int.gcd_dvd_right p q) nonzero]

/-- A fraction of whole numbers comes to lowest terms at once. -/
theorem reduceFraction_cast (p : ℤ) {q : ℤ} (positive : 0 < q) :
    ∃ a b : ℤ, Scalar.reduceFraction (p : ℚ) (q : ℚ) = .ok ((a : ℚ), (b : ℚ)) ∧ 0 < b ∧
      Scalar.reduceFraction (a : ℚ) (b : ℚ) = .ok ((a : ℚ), (b : ℚ)) ∧ (a = 0 ↔ p = 0) := by
  have divisor : 0 < Int.gcd p q := by
    apply Nat.pos_of_ne_zero
    exact fun none => positive.ne' (Int.gcd_eq_zero_iff.1 none).2
  have above : 0 < q / Int.gcd p q := Int.ediv_pos_of_pos_of_dvd positive (by omega) (Int.gcd_dvd_right p q)
  refine ⟨p / Int.gcd p q, q / Int.gcd p q, ?_, above, ?_, ?_⟩
  · rw [reduceFraction_positive _ (Int.cast_pos.2 positive), if_pos (by simp),
      lowestTerms_cast p positive]
  · rw [reduceFraction_positive _ (Int.cast_pos.2 above), if_pos (by simp),
      lowestTerms_cast _ above, Int.gcd_ediv_gcd_ediv_gcd divisor]
    simp
  · constructor
    · intro none
      calc p = p / Int.gcd p q * Int.gcd p q := (Int.ediv_mul_cancel (Int.gcd_dvd_left p q)).symm
        _ = 0 := by rw [none, zero_mul]
    · rintro rfl
      exact Int.zero_ediv _

instance : SteadyScalar ℚ where
  lt_neg x negative := by
    have below : x < 0 := of_decide_eq_true negative
    exact decide_eq_false (not_lt.2 (neg_nonneg.2 below.le))
  lt_asymm x y less := decide_eq_false (not_lt.2 (of_decide_eq_true less).le)
  lt_weak x y z left right := decide_eq_false (not_lt.2
    ((not_lt.1 (of_decide_eq_false right)).trans (not_lt.1 (of_decide_eq_false left))))
  reduceFraction_exists n d := by
    by_cases zero : d = 0
    · refine ⟨n, d, if_pos ?_⟩
      simp [zero]
    · obtain ⟨m, c, reduced, -⟩ := ExactScalar.reduceFraction_eq n zero
      exact ⟨m, c, reduced⟩
  reduceFraction_again := by
    intro n d m c reduced sign
    have bound : 0 ≤ d := not_lt.1 (of_decide_eq_false sign)
    rcases bound.eq_or_lt with zero | positive
    · have same : Scalar.reduceFraction n d = .ok (n, d) := if_pos (by simp [← zero])
      rw [same] at reduced
      cases reduced
      exact ⟨same, sign, Iff.rfl, Iff.rfl⟩
    · rw [reduceFraction_positive n positive] at reduced
      split at reduced
      · rename_i whole
        obtain ⟨p, rfl⟩ : ∃ p : ℤ, n = p := ⟨n.num, ((Rat.den_eq_one_iff n).1 whole.1).symm⟩
        obtain ⟨q, rfl⟩ : ∃ q : ℤ, d = q := ⟨d.num, ((Rat.den_eq_one_iff d).1 whole.2).symm⟩
        have positive' : 0 < q := Int.cast_pos.1 positive
        obtain ⟨a, b, once, above, again, vanishes⟩ := reduceFraction_cast p positive'
        rw [reduceFraction_positive _ positive, if_pos whole] at once
        rw [once] at reduced
        cases reduced
        refine ⟨again, decide_eq_false (not_lt.2 (Int.cast_pos.2 above).le), ?_, ?_⟩
        · rw [Int.cast_eq_zero, Int.cast_eq_zero, vanishes]
        · rw [Int.cast_eq_zero, Int.cast_eq_zero]
          omega
      · rename_i part
        cases reduced
        refine ⟨?_, sign, Iff.rfl, Iff.rfl⟩
        rw [reduceFraction_positive n positive, if_neg part]

end SymbolicAlgebra.Rational
