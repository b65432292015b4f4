/-
  The size of built terms
  =======================
  Building a term never makes it larger than what it is built from:
  **`size_normal_le`**. In particular a term keeps within its size when its sign
  changes (**`size_negate_le`**).
-/
import SymbolicAlgebra.Node.Term

-- a sum of whole numbers starts from their own zero, whatever else has one
attribute [local instance (1100)] Zero.ofOfNat0

namespace SymbolicAlgebra.Term

variable {α : Type} [Scalar α]

/-- The size of the factors on both sides of the bar. -/
def factorSize (t : Term α (Node α)) : Nat :=
  Node.factorSizes t.factors + Node.factorSizes t.divisors

theorem size_product (t : Term α (Node α)) : (Node.product t).size = 1 + t.factorSize := by
  cases t
  simp [Node.size, factorSize]

theorem factorSizes_append (fs gs : List (Factor (Node α))) :
    Node.factorSizes (fs ++ gs) = Node.factorSizes fs + Node.factorSizes gs := by
  induction fs with
  | nil => simp [Node.factorSizes]
  | cons f fs ih =>
    rw [List.cons_append, Node.factorSizes, Node.factorSizes, ih]
    omega

theorem factorSizes_singleton_le (f : Factor (Node α)) :
    Node.factorSizes [f] ≤ (Node.power f).size := by
  rw [Node.factorSizes, Node.factorSizes, Node.size]
  split <;> omega

theorem factorSize_push_le (t : Term α (Node α)) (above : Bool) (f : Factor (Node α)) :
    (t.push above f).factorSize ≤ t.factorSize + (Node.power f).size := by
  have single := factorSizes_singleton_le f
  cases above <;> simp [push, factorSize, factorSizes_append] <;> omega

theorem factorSize_scale (t : Term α (Node α)) (above : Bool) (x : α) :
    (t.scale above x).factorSize = t.factorSize := by
  cases above <;> rfl

theorem factorSize_multiplyBy_le (t : Term α (Node α)) (above : Bool) (f : Factor (Node α)) :
    (t.multiplyBy above f).factorSize ≤ t.factorSize + (Node.power f).size := by
  obtain ⟨base, exponent⟩ := f
  unfold multiplyBy
  dsimp only
  split
  · rw [factorSize_scale]
    omega
  · split
    · rename_i v x _
      split
      · exact factorSize_push_le _ above ⟨.var v false, .number x⟩
      · exact factorSize_push_le _ above ⟨.var v false, .number x⟩
    · exact factorSize_push_le _ _ _
  · split
    · rename_i c x _
      split
      · exact factorSize_push_le _ above ⟨.constant c false, .number x⟩
      · exact factorSize_push_le _ above ⟨.constant c false, .number x⟩
    · exact factorSize_push_le _ _ _
  · exact factorSize_push_le _ _ _

theorem factorSize_absorb_le (t : Term α (Node α)) (above : Bool) (f : Factor (Node α)) :
    (t.absorb above f).factorSize ≤ t.factorSize + (Node.power f).size := by
  obtain ⟨base, exponent⟩ := f
  unfold absorb
  dsimp only
  split
  · split
    · exact factorSize_multiplyBy_le _ _ _
    · exact factorSize_multiplyBy_le _ _ _
  · exact factorSize_multiplyBy_le _ _ _

theorem factorSize_scaleBy (t u : Term α (Node α)) (above : Bool) :
    (t.scaleBy above u).factorSize = t.factorSize := by
  cases above <;> rfl

theorem factorSize_gather_le (pending : List (Factor (Node α) × Bool)) (t : Term α (Node α)) :
    (gather pending t).factorSize ≤ t.factorSize + load pending := by
  fun_induction gather pending t with
  | case1 t => omega
  | case2 t base exponent above rest _ ih =>
    rw [load_cons]
    omega
  | case3 t exponent above rest _ _ u ih =>
    have inner := load_sides u above
    rw [load_append, factorSize_scaleBy] at ih
    rw [load_cons]
    dsimp only
    omega
  | case4 t exponent above rest _ _ u ih =>
    have inner := load_sides u above
    rw [load_append, factorSize_scaleBy] at ih
    rw [load_cons]
    simp only [Node.size, Node.termSizes] at inner ⊢
    omega
  | case5 t exponent above rest _ _ f ih =>
    rw [load_append, load_cons] at ih
    rw [load_cons]
    simp only [Node.size, load, List.map_nil, List.sum_nil] at ih ⊢
    omega
  | case6 t exponent above rest _ _ base _ _ _ ih =>
    have step := factorSize_absorb_le t above ⟨base, exponent⟩
    rw [load_cons]
    rw [Node.size] at step
    dsimp only
    omega
  | case7 t base exponent above rest _ _ ih =>
    have step := factorSize_absorb_le t above ⟨base, exponent⟩
    rw [load_cons]
    rw [Node.size] at step
    dsimp only
    omega

theorem factorSizes_empty : Node.factorSizes [(Factor.empty : Factor (Node α))] = 0 := by
  simp [Factor.empty, Node.factorSizes, Node.isZero, Scalar.zero_beq_zero]

theorem factorSize_settled (t : Term α (Node α)) : t.settled.factorSize = t.factorSize := by
  have filled : ∀ fs : List (Factor (Node α)),
      Node.factorSizes (if fs.isEmpty then [Factor.empty] else fs) = Node.factorSizes fs := by
    intro fs
    cases fs with
    | nil => simp [factorSizes_empty, Node.factorSizes]
    | cons f fs => simp
  unfold settled factorSize
  dsimp only
  split <;> rw [filled, filled]

theorem load_eq (fs : List (Factor (Node α))) (above : Bool) :
    load (fs.map (·, above)) = (fs.map fun f => (Node.power f).size).sum := by
  simp [load, Function.comp_def]

/-- A built term is no larger than the factors it is built from. -/
theorem size_normal_le (n d : α) (fs gs : List (Factor (Node α))) :
    (Node.product (normal n d fs gs)).size ≤
      1 + ((fs.map fun f => (Node.power f).size).sum + (gs.map fun f => (Node.power f).size).sum) := by
  rw [size_product, normal, factorSize_settled]
  have gathered := factorSize_gather_le (fs.map (·, true) ++ gs.map (·, false))
    (⟨n, d, [], []⟩ : Term α (Node α))
  rw [load_append, load_eq, load_eq] at gathered
  simp only [factorSize, Node.factorSizes] at gathered ⊢
  omega

theorem sum_sizes_real (fs : List (Factor (Node α))) :
    ((SymbolicAlgebra.realFactors fs).map fun f => (Node.power f).size).sum = Node.factorSizes fs := by
  rw [← load_real fs true, load_eq]

theorem factorSize_absorb_numbers (t : Term α (Node α)) (above : Bool) (b x : α) :
    (t.absorb above ⟨.number b, .number x⟩).factorSize = t.factorSize := by
  unfold absorb
  dsimp only
  split
  · exact factorSize_scale _ _ _
  · exact factorSize_scale _ _ _

theorem factorSize_wrap_number (b : α) : (wrap (.number b)).factorSize = 0 := by
  have gathered : ∀ t : Term α (Node α),
      (gather [(⟨.number b, .number 1⟩, true)] t).factorSize = t.factorSize := by
    intro t
    rw [gather]
    · split
      · rw [gather]
      · split
        · rw [gather, factorSize_absorb_numbers]
        · rw [gather, factorSize_absorb_numbers]
    all_goals simp
  simp only [wrap, Node.asFactor, normal, List.map_cons, List.map_nil, List.append_nil]
  rw [factorSize_settled, gathered]
  rfl

/-- A term does not grow when its sign changes. -/
theorem size_negate_le (t : Term α (Node α)) :
    (Node.product t.negate).size ≤ (Node.product t).size := by
  have empty : (wrap (Node.ofValue (-1) : Node α)).factorSize = 0 := factorSize_wrap_number _
  have built := size_normal_le (t.numerator * (wrap (Node.ofValue (-1) : Node α)).numerator)
    (t.denominator * (wrap (Node.ofValue (-1) : Node α)).denominator)
    (t.realFactors ++ (wrap (Node.ofValue (-1) : Node α)).realFactors)
    (t.realDivisors ++ (wrap (Node.ofValue (-1) : Node α)).realDivisors)
  have sizes : ∀ u : Term α (Node α), ((u.realFactors.map fun f => (Node.power f).size).sum
      + (u.realDivisors.map fun f => (Node.power f).size).sum) = u.factorSize := by
    intro u
    rw [realFactors, realDivisors, sum_sizes_real, sum_sizes_real]
    rfl
  have left := sizes t
  have right := sizes (wrap (Node.ofValue (-1) : Node α))
  rw [List.map_append, List.map_append, List.sum_append, List.sum_append] at built
  rw [size_product t, negate, times]
  omega

end SymbolicAlgebra.Term
