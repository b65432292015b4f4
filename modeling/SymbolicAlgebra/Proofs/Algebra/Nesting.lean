/-
  Nested exponents
  ================
  The level of an expression counts how often exponents other than plain numbers are
  nested in each other, and its depth the steps into bases and arguments. For a bound on
  the level the depths are grades (**`Node.nested_grading`**): neither building nor
  reducing raises the one or the other. An exponent has to stay a level below, or to be a
  number.
-/
import SymbolicAlgebra.Proofs.CarryOver.Building
import SymbolicAlgebra.Proofs.Lasting.Height

namespace SymbolicAlgebra

variable {α : Type}

namespace Node

/-! ### Levels and depths of the parts -/

theorem level_power_le_iff {l : Nat} {f : Factor (Node α)} : (Node.power f).level ≤ l ↔
    f.base.level ≤ l ∧ ((∃ x, f.exponent = .number x) ∨ f.exponent.level < l) := by
  obtain ⟨b, e⟩ := f
  cases e with
  | number x => simp [level]
  | _ =>
    rw [level]
    · simp
      omega
    · simp

theorem factorsLevel_le_iff {l : Nat} {fs : List (Factor (Node α))} :
    factorsLevel fs ≤ l ↔ ∀ f ∈ fs, (Node.power f).level ≤ l := by
  induction fs with
  | nil => simp [factorsLevel]
  | cons f fs ih =>
    obtain ⟨b, e⟩ := f
    have first : factorsLevel (⟨b, e⟩ :: fs) = max (Node.power ⟨b, e⟩).level (factorsLevel fs) := by
      cases e <;> rfl
    rw [first, List.forall_mem_cons, ← ih]
    omega

theorem level_product_le_iff {l : Nat} {t : Term α (Node α)} : (Node.product t).level ≤ l ↔
    ∀ f ∈ t.factors ++ t.divisors, (Node.power f).level ≤ l := by
  obtain ⟨n, d, fs, gs⟩ := t
  rw [level, List.forall_mem_append, ← factorsLevel_le_iff, ← factorsLevel_le_iff]
  dsimp only
  omega

theorem level_sum_le_iff {l : Nat} {ts : List (Term α (Node α))} : (Node.sum ts).level ≤ l ↔
    ∀ t ∈ ts, (Node.product t).level ≤ l := by
  rw [level]
  induction ts with
  | nil => simp [termsLevel]
  | cons t ts ih =>
    obtain ⟨n, d, fs, gs⟩ := t
    rw [termsLevel, List.forall_mem_cons, ← ih, level]
    omega

theorem factorsDepth_le_iff {k : Nat} {fs : List (Factor (Node α))} :
    factorsDepth fs ≤ k ↔ ∀ f ∈ fs, f.base.depth ≤ k := by
  induction fs with
  | nil => simp [factorsDepth]
  | cons f fs ih =>
    obtain ⟨b, e⟩ := f
    rw [factorsDepth, List.forall_mem_cons, ← ih]
    dsimp only
    omega

theorem depth_product_le_iff {k : Nat} {t : Term α (Node α)} : (Node.product t).depth ≤ k ↔
    ∃ j, k = j + 1 ∧ ∀ f ∈ t.factors ++ t.divisors, f.base.depth ≤ j := by
  obtain ⟨n, d, fs, gs⟩ := t
  simp only [depth, List.forall_mem_append, ← factorsDepth_le_iff]
  constructor
  · intro le
    exact ⟨k - 1, by omega, by omega, by omega⟩
  · rintro ⟨j, rfl, above, below⟩
    omega

theorem depth_sum_le_iff {k : Nat} {ts : List (Term α (Node α))} : (Node.sum ts).depth ≤ k ↔
    ∃ j, k = j + 1 ∧ ∀ t ∈ ts, (Node.product t).depth ≤ j := by
  have each : ∀ j, termsDepth ts ≤ j ↔ ∀ t ∈ ts, (Node.product t).depth ≤ j := by
    intro j
    induction ts with
    | nil => simp [termsDepth]
    | cons t ts ih =>
      obtain ⟨n, d, fs, gs⟩ := t
      rw [termsDepth, List.forall_mem_cons, ← ih, depth]
      omega
  rw [depth]
  constructor
  · intro le
    exact ⟨k - 1, by omega, (each _).1 (by omega)⟩
  · rintro ⟨j, rfl, below⟩
    have := (each j).2 below
    omega

/-! ### Depths as grades -/

variable [Scalar α]

/-- An exponent over bases of the level: a number, or nested less deep, without empty sums. -/
def Exponent (l : Nat) (e : Node α) : Prop := ((∃ x, e = .number x) ∨ e.level < l) ∧ e.Filled

/-- Of the level and of the depth at most, and every sum has terms. -/
structure Nested (l k : Nat) (n : Node α) : Prop where
  level : n.level ≤ l
  depth : n.depth ≤ k
  filled : n.Filled

theorem exponent_number (l : Nat) (x : α) : Exponent l (Node.number x) :=
  ⟨.inl ⟨x, rfl⟩, .number x trivial⟩

theorem Nested.exponent {l k : Nat} {e : Node α} (h : e.Nested l k) : Exponent (l + 1) e :=
  ⟨.inr (Nat.lt_succ_of_le h.level), h.filled⟩

/-- Every exponent of a level is an expression of the level before, of some depth. -/
theorem Exponent.nested {l : Nat} {e : Node α} (h : Exponent (l + 1) e) : e.Nested l e.depth := by
  obtain ⟨number | below, filled⟩ := h
  · obtain ⟨x, rfl⟩ := number
    exact ⟨Nat.zero_le l, Nat.le_refl _, filled⟩
  · exact ⟨Nat.le_of_lt_succ below, Nat.le_refl _, filled⟩

theorem Exponent.of_zero {e : Node α} (h : Exponent 0 e) : ∃ x, e = .number x := by
  obtain ⟨number | below, -⟩ := h
  · exact number
  · exact absurd below (Nat.not_lt_zero _)

theorem nested_self {n : Node α} (filled : n.Filled) : n.Nested n.level n.depth :=
  ⟨Nat.le_refl _, Nat.le_refl _, filled⟩

/-- Within a level, depths are grades. -/
theorem nested_grading (l : Nat) :
    Grading (Nested l : Nat → Node α → Prop) fun _ => Exponent l where
  mono h le := ⟨h.level, Nat.le_trans h.depth le, h.filled⟩
  exponent_mono h _ := h
  number k x := ⟨Nat.zero_le l, Nat.zero_le k, .number x trivial⟩
  constant k c negative := ⟨Nat.zero_le l, Nat.zero_le k, .constant c negative⟩
  var k v negative := ⟨Nat.zero_le l, Nat.zero_le k, .var v negative⟩
  exponent _ x := exponent_number l x
  power {k f} := by
    constructor
    · rintro ⟨levels, depths, filled⟩
      obtain ⟨base, exponent⟩ := level_power_le_iff.1 levels
      obtain ⟨-, parts⟩ := meets_power.1 filled
      have deep : 1 + f.base.depth ≤ k := depths
      exact ⟨k - 1, by omega, ⟨base, by omega, parts.base⟩, exponent, parts.exponent⟩
    · rintro ⟨j, rfl, base, exponent, filled⟩
      have deep : (Node.power f).depth = 1 + f.base.depth := rfl
      refine ⟨level_power_le_iff.2 ⟨base.level, exponent⟩, ?_, .power f trivial base.filled filled⟩
      have := base.depth
      omega
  real {k t} h := by
    obtain ⟨j, rfl, depths⟩ := depth_product_le_iff.1 h.depth
    obtain ⟨-, filled⟩ := meets_product.1 h.filled
    refine ⟨j, rfl, ?_⟩
    intro f hf
    have listed := (Term.mem_realParts.1 hf).1
    obtain ⟨base, exponent⟩ := level_power_le_iff.1 (level_product_le_iff.1 h.level f listed)
    exact ⟨⟨base, depths f listed, (filled f hf).base⟩, exponent, (filled f hf).exponent⟩
  product {k t} each := by
    refine ⟨level_product_le_iff.2 ?_, depth_product_le_iff.2 ⟨k, rfl, ?_⟩,
      meets_product.2 ⟨trivial, ?_⟩⟩
    · intro f hf
      rcases each f hf with rfl | ⟨base, exponent⟩
      · exact Nat.zero_le l
      · exact level_power_le_iff.2 ⟨base.level, exponent.1⟩
    · intro f hf
      rcases each f hf with rfl | ⟨base, exponent⟩
      · exact Nat.zero_le k
      · exact base.depth
    · intro f hf
      rcases each f (Term.mem_realParts.1 hf).1 with rfl | ⟨base, exponent⟩
      · exact ⟨.number 1 trivial, .number 0 trivial⟩
      · exact ⟨base.filled, exponent.2⟩
  sum {k ts} := by
    constructor
    · rintro ⟨levels, depths, filled⟩
      obtain ⟨j, rfl, below⟩ := depth_sum_le_iff.1 depths
      obtain ⟨some, parts⟩ := meets_sum.1 filled
      refine ⟨j, rfl, some, ?_⟩
      intro t ht
      exact ⟨level_sum_le_iff.1 levels t ht, below t ht, meets_product.2 ⟨trivial, parts t ht⟩⟩
    · rintro ⟨j, rfl, some, each⟩
      exact ⟨level_sum_le_iff.2 fun t ht => (each t ht).level,
        depth_sum_le_iff.2 ⟨j, rfl, fun t ht => (each t ht).depth⟩,
        meets_sum.2 ⟨some, fun t ht => (meets_product.1 (each t ht).filled).2⟩⟩
  unary {k f x} := by
    constructor
    · rintro ⟨levels, depths, filled⟩
      have deep : 1 + x.depth ≤ k := depths
      exact ⟨k - 1, by omega, levels, by omega, meets_unary.1 filled⟩
    · rintro ⟨j, rfl, argument⟩
      have deep : (Node.unary f x).depth = 1 + x.depth := rfl
      have := argument.depth
      exact ⟨argument.level, by omega, meets_unary.2 argument.filled⟩
  binary {k f x y} := by
    have deep : (Node.binary f x y).depth = 1 + max x.depth y.depth := rfl
    have levels : (Node.binary f x y).level = max x.level y.level := rfl
    constructor
    · rintro ⟨level, depth, filled⟩
      obtain ⟨left, right⟩ := meets_binary.1 filled
      exact ⟨k - 1, by omega, ⟨by omega, by omega, left⟩, by omega, by omega, right⟩
    · rintro ⟨j, rfl, left, right⟩
      have := left.level
      have := right.level
      have := left.depth
      have := right.depth
      exact ⟨by omega, by omega, meets_binary.2 ⟨left.filled, right.filled⟩⟩

/-! ### Reducing and building anew -/

/-- An operation that keeps levels keeps exponents if it keeps numbers. -/
theorem Exponent.keep {l : Nat} {e : Node α} {f : Node α → Node α} (h : Exponent l e)
    (number : ∀ x, f (.number x) = .number x) (keeps : ∀ {l k}, e.Nested l k → (f e).Nested l k) :
    Exponent l (f e) := by
  cases l with
  | zero =>
    obtain ⟨x, rfl⟩ := h.of_zero
    rw [number]
    exact h
  | succ l => exact (keeps h.nested).exponent

theorem nested_reduceAt (height : Nat) {l k : Nat} {n : Node α} (h : n.Nested l k) :
    (reduceAt height n).Nested l k := by
  induction height generalizing l k n with
  | zero => exact h
  | succ height ih =>
    refine (nested_grading l).reduceAt_succ ih (fun exponent => ?_) h
    exact exponent.keep (reduceAt_number height) ih

/-- Reducing raises neither the level nor the depth. -/
theorem Nested.reduce {l k : Nat} {n : Node α} (h : n.Nested l k) : n.reduce.Nested l k :=
  nested_reduceAt n.height h

/-- Building anew raises neither the level nor the depth. -/
theorem Nested.clone {l k : Nat} {n : Node α} (h : n.Nested l k) : n.clone.Nested l k := by
  have factors : ∀ {l k : Nat} {t : Term α (Node α)},
      (∀ f ∈ t.realParts, (∀ {l k}, f.base.Nested l k → f.base.clone.Nested l k) ∧
        ∀ {l k}, f.exponent.Nested l k → f.exponent.clone.Nested l k) →
      (Node.product t).Nested l k → (Node.product t.clone).Nested l k := by
    intro l k t parts h
    obtain ⟨j, rfl, -⟩ := (nested_grading l).real h
    have each := (nested_grading l).parts h
    refine (nested_grading l).normal _ _ ?_
    rw [cloneFactors_eq, cloneFactors_eq, ← List.map_append, List.forall_mem_map]
    intro f hf
    exact ⟨(parts f hf).1 (each f hf).base, (each f hf).exponent.keep (fun _ => rfl) (parts f hf).2⟩
  induction n using Node.induction_parts generalizing l k with
  | number | constant | var => exact h
  | power f base exponent =>
    obtain ⟨j, rfl, low, below⟩ := (nested_grading l).power.1 h
    exact (nested_grading l).power.2 ⟨j, rfl, base low, below.keep (fun _ => rfl) exponent⟩
  | product t parts => exact factors parts h
  | sum ts parts =>
    obtain ⟨j, rfl, some, each⟩ := (nested_grading l).sum.1 h
    obtain ⟨i, rfl⟩ : ∃ i, j = i + 1 := by
      obtain ⟨t, ht⟩ := List.exists_mem_of_ne_nil ts some
      obtain ⟨i, same, -⟩ := (nested_grading l).real (each t ht)
      exact ⟨i, same⟩
    show (Node.sum (flattenedTerms (cloneTerms ts))).Nested l (i + 2)
    rw [cloneTerms_eq]
    refine (nested_grading l).flattenedTerms (List.forall_mem_map.2 ?_)
    intro t ht
    exact factors (parts t ht) (each t ht)
  | unary f x argument =>
    obtain ⟨j, rfl, low⟩ := (nested_grading l).unary.1 h
    exact (nested_grading l).unary.2 ⟨j, rfl, argument low⟩
  | binary f x y left right =>
    obtain ⟨j, rfl, first, second⟩ := (nested_grading l).binary.1 h
    exact (nested_grading l).binary.2 ⟨j, rfl, left first, right second⟩

end Node

end SymbolicAlgebra
