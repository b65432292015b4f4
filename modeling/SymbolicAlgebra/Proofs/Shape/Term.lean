/-
  The shape of terms
  ==================
  A term is *normal* when its denominator is not below zero and each of its two lists of
  factors is the placeholder `1 ^ 0` or a list of normal factors, never empty. A normal
  factor has an exponent that is not certainly zero, is not a number to the power of a
  number, has no number below zero as its exponent, and has no sign in its base where
  the base is a variable or a constant and the exponent a whole number.

  Whatever a term is built from, it is normal (**`Term.normal_normal`**): nested terms
  dissolve, powers of powers unfold and factors cross the bar, and each of these puts
  back what still has to be looked at, but nothing is listed before `Term.absorb` has
  seen it. Hence every term that is obtained in any way is normal
  (**`Term.obtained_normal`**).
-/
import SymbolicAlgebra.Proofs.Value.Rational
import SymbolicAlgebra.Proofs.Shape.Obtained

namespace SymbolicAlgebra

/-- Scalars for which the opposite of a number below zero is neither below zero nor zero. -/
class SignedScalar (α : Type) [Scalar α] : Prop where
  lt_neg : ∀ x : α, Scalar.lt x 0 = true → Scalar.lt (-x) 0 = false
  neg_beq : ∀ x : α, Scalar.lt x 0 = true → (-x == 0) = false

variable {α : Type} [Scalar α]

/-! ### Normal factors and terms -/

/-- A factor as a term lists it: its exponent is not zero and not a number below zero, it is not a
number to the power of a number, and a whole power of a variable or a constant has no sign in its
base. -/
structure Factor.Normal (f : Factor (Node α)) : Prop where
  real : f.exponent.isZero = false
  symbolic : ∀ b x, f.base = .number b → f.exponent ≠ .number x
  upright : ∀ x, f.exponent = .number x → Scalar.lt x 0 = false
  unsigned : ∀ x, f.exponent = .number x → Scalar.isWhole x = true →
    (∀ v, f.base ≠ .var v true) ∧ ∀ c, f.base ≠ .constant c true

/-- A term as it is built. -/
structure Term.Normal (t : Term α (Node α)) : Prop where
  positive : Scalar.lt t.denominator 0 = false
  factors : Term.Listed Factor.Normal t.factors
  divisors : Term.Listed Factor.Normal t.divisors

/-! ### Building -/

namespace Term

variable {t : Term α (Node α)} {f : Factor (Node α)}

/-- Of a factor whose exponent is present and not below zero, what is listed is normal. -/
theorem AllOver.multiplyBy_normal (h : t.AllOver Factor.Normal) (real : f.exponent.isZero = false)
    (upright : ∀ x, f.exponent = .number x → Scalar.lt x 0 = false) (above : Bool) :
    (t.multiplyBy above f).AllOver Factor.Normal := by
  obtain ⟨base, exponent⟩ := f
  dsimp only at real upright
  have flipped : ∀ x : α,
      (if Scalar.isOdd x = true then { t with numerator := -t.numerator } else t).AllOver
        Factor.Normal := by
    intro x
    split
    · exact h
    · exact h
  have pushed : (∀ b x, base = .number b → exponent ≠ .number x) →
      (∀ x, exponent = .number x → Scalar.isWhole x = true →
        (∀ v, base ≠ .var v true) ∧ ∀ c, base ≠ .constant c true) →
      (t.push above ⟨base, exponent⟩).AllOver Factor.Normal :=
    fun symbolic unsigned => h.push ⟨real, symbolic, upright, unsigned⟩ above
  unfold Term.multiplyBy
  dsimp only
  split
  · exact h.scale above _
  · split
    · refine (flipped _).push ⟨real, ?_, upright, ?_⟩ above
      · exact nofun
      · exact fun _ _ _ => ⟨nofun, nofun⟩
    · rename_i x fraction
      refine pushed nofun fun y same whole => absurd whole ?_
      cases same
      exact fraction
  · split
    · refine (flipped _).push ⟨real, ?_, upright, ?_⟩ above
      · exact nofun
      · exact fun _ _ _ => ⟨nofun, nofun⟩
    · rename_i x fraction
      refine pushed nofun fun y same whole => absurd whole ?_
      cases same
      exact fraction
  · rename_i numbers named known
    refine pushed numbers fun x number _ => ?_
    exact ⟨fun v signed => named v x signed number, fun c signed => known c x signed number⟩

variable [SignedScalar α]

/-- What is left of an absorbed factor is normal. -/
theorem AllOver.absorb_normal (h : t.AllOver Factor.Normal) (real : f.exponent.isZero = false)
    (above : Bool) : (t.absorb above f).AllOver Factor.Normal := by
  unfold Term.absorb
  split
  · rename_i x shown
    split
    · rename_i negative
      have turned : Node.ofValue (-x) = (.number (-x) : Node α) := by
        rw [Node.ofValue, Scalar.unsignedZero, if_neg (by simp [SignedScalar.neg_beq x negative])]
      have present : (Node.number (-x)).isZero = false := by
        rw [Node.isZero, SignedScalar.neg_beq x negative]
      rw [turned]
      refine h.multiplyBy_normal present (fun y same => ?_) _
      cases same
      exact SignedScalar.lt_neg x negative
    · rename_i positive
      refine h.multiplyBy_normal real (fun y same => ?_) above
      cases shown.symm.trans same
      simpa using positive
  · rename_i symbolic
    exact h.multiplyBy_normal real (fun x number => absurd number (symbolic x)) above

/-- However the waiting factors dissolve, what is listed has been absorbed. -/
theorem AllOver.gather_normal {pending : List (Factor (Node α) × Bool)}
    (h : t.AllOver Factor.Normal) : (Term.gather pending t).AllOver Factor.Normal := by
  fun_induction Term.gather pending t with
  | case1 t => exact h
  | case2 t base exponent above rest zero ih => exact ih h
  | case3 t exponent above rest zero unit u ih => exact ih (h.scaleBy above u)
  | case4 t exponent above rest zero unit u ih => exact ih (h.scaleBy above u)
  | case5 t exponent above rest zero unit f ih => exact ih h
  | case6 t exponent above rest zero unit base _ _ _ ih =>
    exact ih (h.absorb_normal (by simpa using zero) above)
  | case7 t base exponent above rest zero composite ih =>
    exact ih (h.absorb_normal (by simpa using zero) above)

theorem lt_settled (t : Term α (Node α)) : Scalar.lt t.settled.denominator 0 = false := by
  unfold Term.settled
  dsimp only
  split
  · rename_i negative
    exact SignedScalar.lt_neg _ negative
  · rename_i positive
    simpa using positive

/-- Every term that is built is normal, whatever it is built from. -/
theorem normal_normal (n d : α) (fs gs : List (Factor (Node α))) : (normal n d fs gs).Normal := by
  have start : (⟨n, d, [], []⟩ : Term α (Node α)).AllOver Factor.Normal :=
    ⟨List.forall_mem_nil _, List.forall_mem_nil _⟩
  obtain ⟨upper, lower⟩ := start.gather_normal.settled
  exact ⟨lt_settled _, upper, lower⟩

/-! ### Every term -/

/-- A term is normal when it is built of any coefficient and any nodes, and so is every term that is
obtained by reading a text, taking expressions apart and operating on them. -/
theorem obtained_normal : (∀ (n d : α) (above below : List (Node α)),
      (Term.ofNodes n d above below).Normal) ∧
    ∀ t : Term α (Node α), (Node.product t).Obtained → t.Normal := by
  refine ⟨fun n d above below => normal_normal n d _ _, fun t obtained => ?_⟩
  have throughout := obtained.throughout (T := Normal) (S := fun _ => True) normal_normal
    fun _ _ => trivial
  exact (Node.throughout_product.1 throughout).1

end Term

instance : SignedScalar ℚ where
  lt_neg x negative := by
    have below : x < 0 := of_decide_eq_true negative
    exact decide_eq_false (by linarith)
  neg_beq x negative := by
    have below : x < 0 := of_decide_eq_true negative
    exact decide_eq_false (by linarith)

/-- A negative denominator, a signed base, a negative exponent and numbers above and below the bar,
and a quotient of two expressions. -/
theorem Term.obtained_normal_quotient :
    let x : Node ℚ := .var ⟨'x', 0⟩ true
    let cube : Node ℚ := .power ⟨x, .number 3⟩
    (Term.ofNodes (3 : ℚ) (-4) [cube, .number 2] [.power ⟨x, .number (-2)⟩]).Normal ∧
      ∃ t, x.divide cube = .ok (.product t) ∧ t.Normal := by
  intro x cube
  have obtained : x.Obtained := .var _ _
  exact ⟨obtained_normal.1 _ _ _ _, _, rfl,
    obtained_normal.2 _ (.divided obtained (.power obtained (.number 3)) rfl)⟩

end SymbolicAlgebra
