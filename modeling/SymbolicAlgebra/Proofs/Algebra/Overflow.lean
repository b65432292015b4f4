/-
  How arithmetic of expressions fails
  ===================================
  Sums, differences, products and quotients of nodes fail in one way only: a fraction
  cannot be scaled to whole parts (`Node.fails_add`, `Node.fails_multiply`), and so does
  expanding (`Node.fails_expand`). So they do not fail at all over numbers whose
  fractions can all be scaled (`FailsByScaling.exists`). The proof follows the recursion
  of simplifying, first down the depth of a tree and then up the levels of its exponents.
-/
import SymbolicAlgebra.Node.Expand
import SymbolicAlgebra.Proofs.Checked
import SymbolicAlgebra.Proofs.Value.Exact

namespace SymbolicAlgebra

/-- The result is there, or it is missing because a fraction cannot be scaled. -/
def FailsByOverflow {β : Type} (x : Checked β) : Prop :=
  ∀ cause, x = .error cause → cause = .overflow

/-- Some fraction of these numbers cannot be scaled to whole parts. -/
def Scalar.Overflows (α : Type) [Scalar α] : Prop :=
  ∃ n d : α, Scalar.reduceFraction n d = .error .overflow

variable {α : Type} [Scalar α]

/-- The result is there, or it is missing because a fraction that cannot be scaled came up. -/
def FailsByScaling (α : Type) [Scalar α] {β : Type} (x : Checked β) : Prop :=
  ∀ cause, x = .error cause → cause = .overflow ∧ Scalar.Overflows α

namespace FailsByScaling

variable {β γ : Type}

theorem overflows {x : Checked β} (h : FailsByScaling α x) : FailsByOverflow x :=
  fun cause missing => (h cause missing).1

theorem ok (x : β) : FailsByScaling α (.ok x : Checked β) := by
  intro cause missing
  cases missing

theorem of_bind {x : Checked β} {f : β → Checked γ} (h : FailsByScaling α (x >>= f)) :
    FailsByScaling α x :=
  fun cause missing => h cause (bind_eq_error.2 (.inl missing))

theorem bind {x : Checked β} {f : β → Checked γ} (first : FailsByScaling α x)
    (next : ∀ b, FailsByScaling α (f b)) : FailsByScaling α (x >>= f) := by
  cases x with
  | ok b => exact next b
  | error cause =>
    intro cause' missing
    obtain rfl : cause = cause' := Except.error.inj missing
    exact first cause rfl

theorem mapM_of_mem {f : β → Checked γ} {bs : List β} (each : ∀ b ∈ bs, FailsByScaling α (f b)) :
    FailsByScaling α (bs.mapM f) := by
  induction bs with
  | nil => exact ok _
  | cons b bs ih =>
    obtain ⟨first, rest⟩ := List.forall_mem_cons.1 each
    rw [List.mapM_cons]
    exact first.bind fun c => (ih rest).bind fun cs => ok _

theorem mapM {f : β → Checked γ} (each : ∀ b, FailsByScaling α (f b)) (bs : List β) :
    FailsByScaling α (bs.mapM f) :=
  mapM_of_mem fun b _ => each b

theorem foldlM {f : γ → β → Checked γ} (each : ∀ c b, FailsByScaling α (f c b)) (bs : List β)
    (c : γ) : FailsByScaling α (bs.foldlM f c) := by
  induction bs generalizing c with
  | nil => exact ok _
  | cons b bs ih =>
    rw [List.foldlM_cons]
    exact (each c b).bind fun c => ih c

end FailsByScaling

open FailsByScaling

namespace Scalar

theorem overflow_of_scaled {scale x : α} {cause : Failure} (h : scaled scale x = .error cause) :
    cause = .overflow := by
  unfold scaled at h
  split at h
  · cases h
  · exact (Except.error.inj h).symm

theorem overflow_of_reduceFraction {n d : α} {cause : Failure}
    (h : reduceFraction n d = .error cause) : cause = .overflow := by
  unfold reduceFraction at h
  split at h
  · cases h
  · generalize (if lt d 0 = true then (-n, -d) else (n, d)) = signed at h
    dsimp only at h
    split at h
    · cases h
    · split at h
      · cases h
      · rcases bind_eq_error.1 h with first | ⟨whole, -, rest⟩
        · exact overflow_of_scaled first
        · rcases bind_eq_error.1 rest with second | ⟨parts, -, done⟩
          · exact overflow_of_scaled second
          · cases done

theorem fails_reduceFraction (n d : α) : FailsByScaling α (reduceFraction n d) := by
  intro cause missing
  obtain rfl := overflow_of_reduceFraction missing
  exact ⟨rfl, n, d, missing⟩

end Scalar

theorem Term.fails_combine (t u : Term α (Node α)) : FailsByScaling α (t.combine u) :=
  (Scalar.fails_reduceFraction _ _).bind fun _ => ok _

namespace Node

/-- Rules whose operations fail by overflow only. -/
structure ExponentRules.Overflowing (rules : ExponentRules α) : Prop where
  add : ∀ m n, FailsByScaling α (rules.add m n)
  tidy : ∀ n, FailsByScaling α (rules.tidy n)

section Depth

variable {rules : ExponentRules α} (closed : ExponentRules.Overflowing rules)
  {simplify : Node α → Checked (Node α)} (inner : ∀ n, FailsByScaling α (simplify n))

include closed

theorem fails_collectOne (f : Factor (Node α)) (gs : List (Factor (Node α))) :
    FailsByScaling α (collectOne rules f gs) := by
  induction gs with
  | nil => exact ok _
  | cons g gs ih =>
    rw [collectOne]
    split
    · exact (closed.add _ _).bind fun _ => ok _
    · exact ih.bind fun _ => ok _

include inner

theorem fails_simplifyFactor (f : Factor (Node α)) :
    FailsByScaling α (simplifyFactor rules simplify f) := by
  refine (inner _).bind fun base => (closed.tidy _).bind fun exponent => ?_
  split
  · exact ok _
  · split
    · dsimp only
      split
      · exact ok _
      · exact ok _
    · exact ok _

theorem fails_simplifyTerm (t : Term α (Node α)) :
    FailsByScaling α (simplifyTerm rules simplify t) := by
  have factors : ∀ fs : List (Factor (Node α)),
      FailsByScaling α (fs.mapM (simplifyFactor rules simplify)) :=
    fun fs => mapM (fails_simplifyFactor closed inner) fs
  have collected : ∀ fs : List (Factor (Node α)), FailsByScaling α (collect rules fs) :=
    fun fs => foldlM (fun grouped f => fails_collectOne closed f grouped) fs []
  have tidied : ∀ fs : List (Factor (Node α)), FailsByScaling α (tidyExponents rules fs) :=
    fun fs => mapM (fun f => (closed.tidy _).bind fun _ => ok _) fs
  refine (factors _).bind fun _ => (collected _).bind fun above =>
    (factors _).bind fun _ => (collected _).bind fun below => ?_
  refine (tidied _).bind fun _ => (tidied _).bind fun _ => ?_
  dsimp only
  split
  · exact ok _
  · exact (Scalar.fails_reduceFraction _ _).bind fun _ => ok _

omit closed inner

theorem fails_simplifySum {simplify : Term α (Node α) → Checked (Term α (Node α))}
    (inner : ∀ t, FailsByScaling α (simplify t)) (ts : List (Term α (Node α))) :
    FailsByScaling α (simplifySum simplify ts) := by
  have merge : ∀ (t : Term α (Node α)) (us : List (Term α (Node α))),
      FailsByScaling α (mergeOne simplify t us) := by
    intro t us
    induction us with
    | nil => exact ok _
    | cons u us ih =>
      rw [mergeOne]
      split
      · exact (Term.fails_combine _ _).bind fun _ => (inner _).bind fun _ => ok _
      · exact ih.bind fun _ => ok _
  exact (foldlM (fun merged t => (inner t).bind fun t => merge t merged) ts []).bind fun _ => ok _

include closed

theorem fails_simplifyAt (depth : Nat) (n : Node α) :
    FailsByScaling α (simplifyAt rules depth n) := by
  induction depth generalizing n with
  | zero => exact ok _
  | succ depth ih =>
    unfold simplifyAt
    split
    · exact (fails_simplifyFactor closed ih _).bind fun _ => ok _
    · exact (fails_simplifyTerm closed ih _).bind fun _ => ok _
    · exact (fails_simplifySum (fails_simplifyTerm closed ih) _).bind fun _ => ok _
    · exact (ih _).bind fun _ => ok _
    · exact (ih _).bind fun _ => (ih _).bind fun _ => ok _
    · exact ok _

theorem fails_simplifySumWith (ts : List (Term α (Node α))) :
    FailsByScaling α (simplifySumWith rules ts) :=
  fails_simplifySum (fails_simplifyTerm closed (fails_simplifyAt closed _)) ts

end Depth

theorem fails_addWith {simplify : List (Term α (Node α)) → Checked (List (Term α (Node α)))}
    (inner : ∀ ts, FailsByScaling α (simplify ts)) (m n : Node α) :
    FailsByScaling α (addWith simplify m n) := by
  unfold addWith
  split
  · exact ok _
  · exact (inner _).bind fun _ => ok _
  · exact (inner _).bind fun _ => ok _
  · unfold addTerms
    split
    · exact ok _
    · split
      · exact ok _
      · dsimp only
        split
        · exact (Term.fails_combine _ _).bind fun _ => ok _
        · refine (inner _).bind fun _ => ?_
          split
          · exact ok _
          · exact ok _

theorem overflowing_exponentRules (level : Nat) :
    ExponentRules.Overflowing (exponentRules level : ExponentRules α) := by
  induction level with
  | zero => exact ⟨fails_addWith fun ts => ok ts, fun n => ok _⟩
  | succ level ih =>
    exact ⟨fails_addWith (fails_simplifySumWith ih),
      fun n => (fails_simplifyAt ih _ n).bind fun _ => ok _⟩

theorem fails_simplifyTerms (ts : List (Term α (Node α))) : FailsByScaling α (simplifyTerms ts) :=
  fails_simplifySumWith (overflowing_exponentRules _) ts

theorem fails_simplify (n : Node α) : FailsByScaling α n.simplify :=
  fails_simplifyAt (overflowing_exponentRules _) _ n

/-- A sum of nodes fails by overflow only. -/
theorem fails_add (m n : Node α) : FailsByScaling α (m.add n) :=
  fails_addWith fails_simplifyTerms m n

/-- A product of nodes fails by overflow only. -/
theorem fails_multiply (m n : Node α) : FailsByScaling α (m.multiply n) := by
  unfold multiply
  split
  · exact ok _
  · exact ok _
  · split
    · exact ok _
    · exact ok _
  · exact ok _
  · exact (fails_simplifyTerms _).bind fun _ => ok _
  · exact ok _

theorem fails_subtract (m n : Node α) : FailsByScaling α (m.subtract n) := fails_add m n.negate

theorem fails_divide (m n : Node α) : FailsByScaling α (m.divide n) := fails_multiply m _

/-! ### Expanding -/

theorem fails_multiplyRepeatedly (m n : Node α) (count : Nat) :
    FailsByScaling α (m.multiplyRepeatedly n count) := by
  induction count generalizing m with
  | zero => exact ok _
  | succ count ih => exact (fails_multiply m n).bind fun k => ih k

theorem fails_expandedPower (base exponent : Node α) :
    FailsByScaling α (expandedPower base exponent) := by
  unfold expandedPower
  split
  · split
    · exact (fails_multiplyRepeatedly _ _ _).bind fun _ => ok _
    · exact ok _
  · exact ok _

theorem fails_expandedTerm (n d : α) (above below : List (Factor (Node α))) :
    FailsByScaling α (expandedTerm n d above below) := by
  unfold expandedTerm
  split
  · exact ok _
  · refine (foldlM (fun m ts => fails_multiply m _) _ _).bind fun product => ?_
    split
    · exact ok _
    · exact ok _

/-- Expanding fails by overflow only. -/
theorem fails_expand (n : Node α) : FailsByScaling α n.expand := by
  induction n using Node.induction with
  | power f base exponent =>
    rw [expand_power]
    refine FailsByScaling.bind ?_ fun _ => ok _
    exact base.bind fun b => exponent.bind fun e => fails_expandedPower b e
  | product t above below =>
    have factors : ∀ {fs : List (Factor (Node α))},
        (∀ f ∈ fs, FailsByScaling α (Node.power f).expand) → FailsByScaling α (expandFactors fs) := by
      intro fs each
      rw [expandFactors_eq]
      refine mapM_of_mem fun f hf => ?_
      have power := each f (List.mem_filter.1 hf).1
      rw [expand_power] at power
      exact power.of_bind
    rw [expand_product]
    exact (factors above).bind fun fs => (factors below).bind fun gs => fails_expandedTerm _ _ fs gs
  | sum ts each =>
    rw [expand, expandTerms_eq]
    exact (mapM_of_mem each).bind fun terms => (fails_simplifyTerms _).bind fun _ => ok _
  | unary f x ih =>
    rw [expand]
    exact ih.bind fun _ => ok _
  | binary f x y left right =>
    rw [expand]
    exact left.bind fun _ => right.bind fun _ => ok _
  | _ =>
    simp only [expand]
    exact ok _

end Node

/-! ### Exact numbers -/

/-- Every fraction of exact numbers can be reduced. -/
theorem ExactScalar.not_overflows {α : Type} [FieldScalar α] [ExactScalar α] :
    ¬ Scalar.Overflows α := by
  rintro ⟨n, d, failed⟩
  by_cases zero : d = 0
  · rw [Scalar.reduceFraction, if_pos (by simp [zero])] at failed
    cases failed
  · obtain ⟨m, c, reduced, -⟩ := reduceFraction_eq n zero
    rw [reduced] at failed
    cases failed

/-- What can only fail by a fraction that cannot be reduced is there. -/
theorem FailsByScaling.exists {α β : Type} [FieldScalar α] [ExactScalar α] {x : Checked β}
    (h : FailsByScaling α x) : ∃ b, x = .ok b := by
  cases x with
  | ok b => exact ⟨b, rfl⟩
  | error cause => exact absurd (h cause rfl).2 ExactScalar.not_overflows

end SymbolicAlgebra
