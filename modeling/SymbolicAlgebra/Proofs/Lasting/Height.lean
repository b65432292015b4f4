/-
  Reducing goes no deeper than the tree
  =====================================
  Reducing a term takes the one factor that may be left of it apart once more, and this
  factor is no part of the tree. The recursion is therefore cut off at the height of
  the tree. This costs nothing: heights are grades (`Node.low_grading`), so reducing makes no
  tree higher, and no more steps change anything: **`Node.reduceAt_eq`**.

  So `reduce` obeys the equations of the recursion without a bound (`Node.reduce_power`
  and the others).
-/
import SymbolicAlgebra.Proofs.Algebra.Grading
import SymbolicAlgebra.Proofs.Algebra.Likeness

namespace SymbolicAlgebra

open Node (FactorBelow TermBelow)

variable {α : Type} [Scalar α] {k : Nat}

/-! ### Heights of terms and sums -/

namespace Node

omit [Scalar α] in
theorem factorsHeight_lt_iff (positive : 0 < k) {fs : List (Factor (Node α))} :
    factorsHeight fs < k ↔ ∀ f ∈ fs, FactorBelow k f := by
  induction fs with
  | nil => simpa [factorsHeight] using positive
  | cons f fs ih =>
    rw [factorsHeight, List.forall_mem_cons, ← ih, FactorBelow]
    omega

omit [Scalar α] in
theorem height_product_le_iff {t : Term α (Node α)} : (Node.product t).height ≤ k ↔
    0 < k ∧ ∀ f ∈ t.factors ++ t.divisors, FactorBelow k f := by
  obtain ⟨n, d, fs, gs⟩ := t
  rw [height, List.forall_mem_append]
  constructor
  · intro low
    have positive : 0 < k := by omega
    exact ⟨positive, (factorsHeight_lt_iff positive).1 (by dsimp only; omega),
      (factorsHeight_lt_iff positive).1 (by dsimp only; omega)⟩
  · rintro ⟨positive, above, below⟩
    have upper := (factorsHeight_lt_iff positive).2 above
    have lower := (factorsHeight_lt_iff positive).2 below
    dsimp only at upper lower
    omega

omit [Scalar α] in
theorem height_sum_le_iff {ts : List (Term α (Node α))} : (Node.sum ts).height ≤ k ↔
    0 < k ∧ ∀ t ∈ ts, (Node.product t).height < k := by
  rw [height]
  induction ts with
  | nil =>
    rw [termsHeight]
    simp
    omega
  | cons t ts ih =>
    obtain ⟨n, d, fs, gs⟩ := t
    rw [termsHeight, List.forall_mem_cons, height]
    constructor
    · intro low
      obtain ⟨positive, rest⟩ := ih.1 (by omega)
      exact ⟨positive, by omega, rest⟩
    · rintro ⟨positive, first, rest⟩
      have := ih.2 ⟨positive, rest⟩
      omega

omit [Scalar α] in
theorem height_power_le_iff {f : Factor (Node α)} : (Node.power f).height ≤ k ↔
    0 < k ∧ FactorBelow k f := by
  obtain ⟨b, e⟩ := f
  rw [height]
  show _ ↔ 0 < k ∧ b.height < k ∧ e.height < k
  omega

end Node

/-! ### Heights as grades -/

/-- Every sum has terms. -/
def Demand.filled : Demand α where
  number _ := True
  power _ := True
  term _ := True
  sum ts := ts ≠ []

namespace Node

/-- Every sum in the expression that counts has terms. -/
def Filled (n : Node α) : Prop := n.Meets Demand.filled

/-- Every sum has terms when every sum in a part has. -/
instance : Hereditary (Filled : Node α → Prop) where
  number x := .number x trivial
  constant c negative := .constant c negative
  var {v _} _ negative := .var v negative
  power := by
    intro f
    rw [Filled, meets_power]
    exact ⟨fun h => ⟨h.2.base, h.2.exponent⟩, fun h => ⟨trivial, h.1, h.2⟩⟩
  product := by
    intro t
    rw [Filled, meets_product, Term.forall_realParts]
    have power : ∀ f : Factor (Node α), f.Meets Demand.filled ↔ (Node.power f).Filled :=
      fun f => ⟨fun h => meets_power.2 ⟨trivial, h⟩, fun h => (meets_power.1 h).2⟩
    simp only [power]
    exact and_iff_right trivial
  terms {ts} h t ht := meets_product.2 ⟨trivial, (meets_sum.1 h).2 t ht⟩
  sum some each := meets_sum.2 ⟨some, fun t ht => (meets_product.1 (each t ht)).2⟩
  unary := meets_unary
  binary := meets_binary

/-- Not higher than the bound, and every sum has terms. -/
def Low (k : Nat) (n : Node α) : Prop := n.height ≤ k ∧ n.Filled

/-- What is not higher than a bound has parts that are lower. -/
theorem low_grading : Grading (Low : Nat → Node α → Prop) Low where
  mono low le := ⟨Nat.le_trans low.1 le, low.2⟩
  exponent_mono low le := ⟨Nat.le_trans low.1 le, low.2⟩
  number k x := ⟨Nat.zero_le k, .number x trivial⟩
  constant k c negative := ⟨Nat.zero_le k, .constant c negative⟩
  var k v negative := ⟨Nat.zero_le k, .var v negative⟩
  exponent k x := ⟨Nat.zero_le k, .number x trivial⟩
  power {k f} := by
    rw [Low, height_power_le_iff, Filled, meets_power]
    constructor
    · rintro ⟨⟨positive, base, exponent⟩, -, parts⟩
      refine ⟨k - 1, by omega, ⟨?_, parts.base⟩, ⟨?_, parts.exponent⟩⟩
      · exact Nat.le_sub_one_of_lt base
      · exact Nat.le_sub_one_of_lt exponent
    · rintro ⟨j, rfl, base, exponent⟩
      exact ⟨⟨Nat.succ_pos j, Nat.lt_succ_of_le base.1, Nat.lt_succ_of_le exponent.1⟩, trivial,
        base.2, exponent.2⟩
  real {k t} low := by
    obtain ⟨positive, below⟩ := height_product_le_iff.1 low.1
    obtain ⟨-, filled⟩ := meets_product.1 low.2
    refine ⟨k - 1, by omega, ?_⟩
    intro f hf
    obtain ⟨base, exponent⟩ := below f (Term.mem_realParts.1 hf).1
    exact ⟨⟨Nat.le_sub_one_of_lt base, (filled f hf).base⟩,
      ⟨Nat.le_sub_one_of_lt exponent, (filled f hf).exponent⟩⟩
  product {k t} each := by
    refine ⟨height_product_le_iff.2 ⟨Nat.succ_pos k, ?_⟩, meets_product.2 ⟨trivial, ?_⟩⟩
    · intro f hf
      rcases each f hf with rfl | ⟨base, exponent⟩
      · exact ⟨Nat.succ_pos k, Nat.succ_pos k⟩
      · exact ⟨Nat.lt_succ_of_le base.1, Nat.lt_succ_of_le exponent.1⟩
    · intro f hf
      rcases each f (Term.mem_realParts.1 hf).1 with rfl | ⟨base, exponent⟩
      · exact ⟨.number 1 trivial, .number 0 trivial⟩
      · exact ⟨base.2, exponent.2⟩
  sum {k ts} := by
    rw [Low, height_sum_le_iff, Filled, meets_sum]
    constructor
    · rintro ⟨⟨positive, below⟩, some, parts⟩
      refine ⟨k - 1, by omega, some, ?_⟩
      intro t ht
      exact ⟨Nat.le_sub_one_of_lt (below t ht), meets_product.2 ⟨trivial, parts t ht⟩⟩
    · rintro ⟨j, rfl, some, each⟩
      exact ⟨⟨Nat.succ_pos j, fun t ht => Nat.lt_succ_of_le (each t ht).1⟩, some,
        fun t ht => (meets_product.1 (each t ht).2).2⟩
  unary {k f x} := by
    rw [Low, height, Filled, meets_unary]
    constructor
    · rintro ⟨low, argument⟩
      exact ⟨k - 1, by omega, by omega, argument⟩
    · rintro ⟨j, rfl, argument⟩
      exact ⟨by have := argument.1; omega, argument.2⟩
  binary {k f x y} := by
    rw [Low, height, Filled, meets_binary]
    constructor
    · rintro ⟨low, left, right⟩
      exact ⟨k - 1, by omega, ⟨by omega, left⟩, by omega, right⟩
    · rintro ⟨j, rfl, left, right⟩
      exact ⟨by have := left.1; have := right.1; omega, left.2, right.2⟩

/-! ### Reducing -/

/-- Reducing makes no tree higher, however many steps it takes. -/
theorem low_reduceAt (height : Nat) {k : Nat} {n : Node α} (low : n.Low k) :
    (reduceAt height n).Low k := by
  induction height generalizing k n with
  | zero => exact low
  | succ height ih => exact low_grading.reduceAt_succ ih ih low

section Agree

variable {reduce other : Node α → Node α} (agree : ∀ n : Node α, n.Low k → reduce n = other n)

include agree

theorem reduceFactor_congr {f : Factor (Node α)} (low : f.Under Low Low k) :
    reduceFactor reduce f = reduceFactor other f := by
  rw [reduceFactor, reduceFactor, agree _ low.base, agree _ low.exponent]

/-- A term is reduced in one way if its factors are, and the factor that may be left of it. -/
theorem reduceTerm_congr (keeps : ∀ {j} {n : Node α}, n.Low j → (reduce n).Low j)
    {t : Term α (Node α)} (low : ∀ f ∈ t.realParts, f.Under Low Low k) :
    reduceTerm reduce t = reduceTerm other t := by
  have built := low_grading.reducedFactors keeps keeps low
  obtain ⟨above, below⟩ := Term.forall_realParts.1 low
  have mapped : ∀ {fs : List (Factor (Node α))}, (∀ f ∈ fs, f.Under Low Low k) →
      fs.map (reduceFactor reduce) = fs.map (reduceFactor other) := by
    intro fs each
    apply List.map_congr_left
    intro f hf
    exact reduceFactor_congr agree (each f hf)
  unfold Node.reduceTerm
  rw [← mapped above, ← mapped below]
  dsimp only
  generalize Term.ofNodes t.numerator t.denominator (t.realFactors.map (reduceFactor reduce))
    (t.realDivisors.map (reduceFactor reduce)) = reduced at built
  split
  · rfl
  · split
    · split
      · rfl
      · rename_i f only
        have member : f ∈ reduced.realParts := List.mem_append_left _ (only ▸ List.mem_cons_self)
        rw [reduceFactor_congr agree (low_grading.parts built f member)]
      · rfl
    · rfl

end Agree

/-- More steps than the tree is high change nothing. -/
theorem reduceAt_agree {k j : Nat} (le : k ≤ j) (n : Node α) (low : n.Low k) :
    reduceAt k n = reduceAt j n := by
  induction k generalizing j n with
  | zero =>
    obtain ⟨x, rfl⟩ | ⟨c, negative, rfl⟩ | ⟨v, negative, rfl⟩ := low_grading.leaf low
    · cases j <;> rfl
    · cases j <;> rfl
    · cases j <;> rfl
  | succ k ih =>
    obtain ⟨i, rfl⟩ : ∃ i, j = i + 1 := ⟨j - 1, by omega⟩
    have agree : ∀ m : Node α, m.Low k → reduceAt k m = reduceAt i m := ih (by omega)
    have terms : ∀ {t : Term α (Node α)}, (Node.product t).Low (k + 1) →
        reduceTerm (reduceAt k) t = reduceTerm (reduceAt i) t := by
      intro t low
      exact reduceTerm_congr agree (low_reduceAt k) (low_grading.parts low)
    cases n with
    | number | constant | var => rfl
    | power f =>
      obtain ⟨h, same, base, exponent⟩ := low_grading.power.1 low
      obtain rfl := Nat.succ.inj same
      rw [reduceAt, reduceAt]
      exact reduceFactor_congr agree ⟨base, exponent⟩
    | product t =>
      rw [reduceAt, reduceAt]
      exact terms low
    | sum ts =>
      obtain ⟨h, same, some, each⟩ := low_grading.sum.1 low
      obtain rfl := Nat.succ.inj same
      have every : ∀ t ∈ ts, reduceTerm (reduceAt k) t = reduceTerm (reduceAt i) t := by
        intro t ht
        exact terms (low_grading.mono (each t ht) (Nat.le_succ k))
      rcases ts with _ | ⟨t, _ | ⟨u, ts⟩⟩
      · rfl
      · exact every t List.mem_cons_self
      · exact congrArg (fun ns => Node.sum (flattened ns)) (List.map_congr_left every)
    | unary f x =>
      obtain ⟨h, same, argument⟩ := low_grading.unary.1 low
      obtain rfl := Nat.succ.inj same
      rw [reduceAt, reduceAt, agree x argument]
    | binary f x y =>
      obtain ⟨h, same, left, right⟩ := low_grading.binary.1 low
      obtain rfl := Nat.succ.inj same
      rw [reduceAt, reduceAt, agree x left, agree y right]

/-- Reducing to any bound that the tree keeps is reducing. -/
theorem reduceAt_eq {n : Node α} (filled : n.Filled) (le : n.height ≤ k) :
    reduceAt k n = n.reduce :=
  (reduceAt_agree le n ⟨Nat.le_refl _, filled⟩).symm

theorem Low.reduce {n : Node α} (low : n.Low k) : n.reduce.Low k := low_reduceAt n.height low

/-! ### The recursion without a bound -/

section Equations

theorem reduceAt_low (k : Nat) (n : Node α) (low : n.Low k) : reduceAt k n = n.reduce :=
  reduceAt_eq low.2 low.1

theorem reduce_succ {n : Node α} (filled : n.Filled) : n.reduce = reduceAt (n.height + 1) n :=
  (reduceAt_eq filled (Nat.le_succ _)).symm

theorem reduce_power {f : Factor (Node α)} (filled : (Node.power f).Filled) :
    (Node.power f).reduce = reduceFactor Node.reduce f := by
  have low : (Node.power f).Low (Node.power f).height := ⟨Nat.le_refl _, filled⟩
  rw [reduce_succ filled, reduceAt]
  exact reduceFactor_congr (reduceAt_low _) (low_grading.factor low)

theorem reduceTerm_low {t : Term α (Node α)} (low : ∀ f ∈ t.realParts, f.Under Low Low k) :
    reduceTerm (reduceAt k) t = reduceTerm Node.reduce t :=
  reduceTerm_congr (reduceAt_low k) (low_reduceAt k) low

theorem reduce_product {t : Term α (Node α)} (filled : (Node.product t).Filled) :
    (Node.product t).reduce = reduceTerm Node.reduce t := by
  rw [reduce_succ filled, reduceAt]
  exact reduceTerm_low (low_grading.parts_below ⟨Nat.le_refl _, filled⟩)

theorem reduce_single {t : Term α (Node α)} (filled : (Node.sum [t]).Filled) :
    (Node.sum [t]).reduce = reduceTerm Node.reduce t := by
  rw [reduce_succ filled, reduceAt]
  exact reduceTerm_low (low_grading.parts_below (low_grading.single ⟨Nat.le_refl _, filled⟩))

theorem reduce_sum {ts : List (Term α (Node α))} (several : ts.length ≠ 1)
    (filled : (Node.sum ts).Filled) :
    (Node.sum ts).reduce = .sum (flattened (ts.map (reduceTerm Node.reduce))) := by
  have low : (Node.sum ts).Low (Node.sum ts).height := ⟨Nat.le_refl _, filled⟩
  have terms : ts.map (reduceTerm (reduceAt (Node.sum ts).height)) =
      ts.map (reduceTerm Node.reduce) := by
    apply List.map_congr_left
    intro t ht
    exact reduceTerm_low (low_grading.parts_below (low_grading.term low t ht))
  rw [reduce_succ filled, ← terms]
  rcases ts with _ | ⟨t, _ | ⟨u, ts⟩⟩
  · rfl
  · exact absurd rfl several
  · rfl

theorem reduce_unary {f : Unary} {x : Node α} (filled : x.Filled) :
    (Node.unary f x).reduce = .unary f x.reduce := by
  rw [reduce_succ (.unary f x filled), reduceAt, reduceAt_eq filled]
  rw [height]
  omega

theorem reduce_binary {f : Binary} {x y : Node α} (left : x.Filled) (right : y.Filled) :
    (Node.binary f x y).reduce = .binary f x.reduce y.reduce := by
  rw [reduce_succ (.binary f x y left right), reduceAt, reduceAt_eq left, reduceAt_eq right]
  · rw [height]
    omega
  · rw [height]
    omega

end Equations

end Node

end SymbolicAlgebra
