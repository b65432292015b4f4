/-
  What becomes of factors
  =======================
  Under the plain exponent one a term, a sum of one term and a power dissolve into
  their own factors when a term is built. Any other factor whose exponent does not
  vanish is absorbed: **`Term.gather_absorb`**. A term built of factors that are added
  as they stand has just these: **`Term.normal_pushed`**.
-/
import SymbolicAlgebra.Node.TermSize
import SymbolicAlgebra.Proofs.Algebra.Demand

namespace SymbolicAlgebra

variable {α : Type}

namespace Node

/-- Whether the node dissolves into its parts under the plain exponent one. -/
def isSpliced : Node α → Bool
  | .product _ => true
  | .sum [_] => true
  | .power _ => true
  | _ => false

theorem isSpliced_of_apart {n : Node α} (product : ∀ t, n ≠ .product t)
    (single : ∀ t, n ≠ .sum [t]) (power : ∀ f, n ≠ .power f) : n.isSpliced = false := by
  unfold isSpliced
  split
  · exact absurd rfl (product _)
  · exact absurd rfl (single _)
  · exact absurd rfl (power _)
  · rfl

theorem asFactor_of_whole [Scalar α] {n : Node α} (whole : n.isSpliced = false) :
    n.asFactor = ⟨n, .number 1⟩ := by
  cases n with
  | power f => cases whole
  | _ => rfl

end Node

namespace Factor

variable [Scalar α] {f : Factor (Node α)}

/-- The node of the factor by itself: under the plain exponent one its base alone. -/
def shown (f : Factor (Node α)) : Node α := if f.isUnit then f.base else .power f

theorem shown_of_isUnit (unit : f.isUnit = true) : f.shown = f.base := if_pos unit

theorem shown_of_other (other : f.isUnit = false) : f.shown = .power f := if_neg (by simp [other])

end Factor

namespace Term

variable [Scalar α]

/-- A factor that does not dissolve is absorbed. -/
theorem gather_absorb {f : Factor (Node α)} (real : f.exponent.isZero = false)
    (whole : f.exponent.isUnit = true → f.base.isSpliced = false) (above : Bool)
    (rest : List (Factor (Node α) × Bool)) (t : Term α (Node α)) :
    gather ((f, above) :: rest) t = gather rest (t.absorb above f) := by
  obtain ⟨base, exponent⟩ := f
  dsimp only at real whole
  conv =>
    lhs
    unfold gather
  rw [if_neg (by simp [real])]
  by_cases unit : exponent.isUnit = true
  · rw [if_pos unit]
    have kept := whole unit
    rcases base with _ | _ | _ | _ | _ | ⟨_ | ⟨u, _ | ⟨w, us⟩⟩⟩ | _ | _ <;>
      first | rfl | simp [Node.isSpliced] at kept
  · rw [if_neg unit]

/-- A single base under the exponent one is absorbed, when it is not spliced in. -/
theorem normal_alone (real : ((1 : α) == 0) = false) (positive : Scalar.lt (1 : α) 0 = false)
    {b : Node α} (whole : b.isSpliced = false) (n d : α) :
    normal n d [⟨b, .number 1⟩] [] = (multiplyBy ⟨n, d, [], []⟩ true ⟨b, .number 1⟩).settled := by
  have counts : (Node.number (1 : α)).isZero = false := real
  rw [normal, List.map_cons, List.map_nil, List.map_nil, List.append_nil,
    gather_absorb counts fun _ => whole, gather, absorb]
  dsimp only
  rw [positive, if_neg (by simp)]

/-! ### Factors that are added as they stand -/

omit [Scalar α] in
theorem pushed_eq (fs : List (Factor (Node α))) (above : Bool) (t : Term α (Node α)) :
    fs.foldl (fun t f => t.push above f) t =
      if above then { t with factors := t.factors ++ fs }
      else { t with divisors := t.divisors ++ fs } := by
  induction fs generalizing t with
  | nil => cases above <;> simp
  | cons f fs ih =>
    rw [List.foldl_cons, ih]
    cases above <;> simp [push]

theorem gather_pushed {fs : List (Factor (Node α))}
    (pushed : ∀ f ∈ fs, ∀ (above : Bool) (rest : List (Factor (Node α) × Bool))
      (t : Term α (Node α)), gather ((f, above) :: rest) t = gather rest (t.push above f))
    (above : Bool) (rest : List (Factor (Node α) × Bool)) (t : Term α (Node α)) :
    gather (fs.map (·, above) ++ rest) t = gather rest (fs.foldl (fun t f => t.push above f) t) := by
  induction fs generalizing t with
  | nil => rfl
  | cons f fs ih =>
    obtain ⟨first, later⟩ := List.forall_mem_cons.1 pushed
    rw [List.map_cons, List.cons_append, first, ih later, List.foldl_cons]

theorem normal_pushed {n d : α} {fs gs : List (Factor (Node α))}
    (pushed : ∀ f ∈ fs ++ gs, ∀ (above : Bool) (rest : List (Factor (Node α) × Bool))
      (t : Term α (Node α)), gather ((f, above) :: rest) t = gather rest (t.push above f)) :
    normal n d fs gs = settled ⟨n, d, fs, gs⟩ := by
  obtain ⟨above, below⟩ := List.forall_mem_append.1 pushed
  have last := gather_pushed below false []
  simp only [List.append_nil] at last
  rw [normal, gather_pushed above, last, pushed_eq, pushed_eq, gather]
  simp

/-- The factor that stands for an empty product does not count. -/
theorem settled_real (t : Term α (Node α)) :
    t.settled.realFactors = t.realFactors ∧ t.settled.realDivisors = t.realDivisors := by
  have filled : ∀ fs : List (Factor (Node α)), SymbolicAlgebra.realFactors
      (if fs.isEmpty then [Factor.empty] else fs) = SymbolicAlgebra.realFactors fs := by
    intro fs
    cases fs with
    | nil => exact realFactors_of_one Factor.isOne_empty []
    | cons f fs => rfl
  rw [settled]
  split
  · exact ⟨filled t.factors, filled t.divisors⟩
  · exact ⟨filled t.factors, filled t.divisors⟩

/-! ### What a built term lists -/

/-- A property that passes from waiting factors to what they give up when they dissolve, and another
one that what is listed has when a waiting factor with the first is absorbed. -/
structure Passes (W P : Factor (Node α) → Prop) : Prop where
  product : ∀ {t : Term α (Node α)} {e : Node α}, W ⟨.product t, e⟩ → e.isUnit = true →
    ∀ f ∈ t.realParts, W f
  single : ∀ {t : Term α (Node α)} {e : Node α}, W ⟨.sum [t], e⟩ → e.isUnit = true →
    ∀ f ∈ t.realParts, W f
  power : ∀ {f : Factor (Node α)} {e : Node α}, W ⟨.power f, e⟩ → e.isUnit = true → W f
  listed : ∀ {f : Factor (Node α)}, W f → (f.isUnit = true → f.base.isSpliced = false) → P f
  crossed : ∀ {b : Node α} {x : α}, W ⟨b, .number x⟩ → Scalar.lt x 0 = true →
    P ⟨b, Node.ofValue (-x)⟩
  var : ∀ {v : Variable} {e : Node α}, P ⟨.var v true, e⟩ → P ⟨.var v false, e⟩
  constant : ∀ {c : Constant} {e : Node α}, P ⟨.constant c true, e⟩ → P ⟨.constant c false, e⟩

section Passes

variable {W P : Factor (Node α) → Prop} {t : Term α (Node α)} {f : Factor (Node α)}

omit [Scalar α] in
theorem forall_push (h : ∀ g ∈ t.factors ++ t.divisors, P g) (above : Bool) (hf : P f) :
    ∀ g ∈ (t.push above f).factors ++ (t.push above f).divisors, P g := by
  obtain ⟨upper, lower⟩ := List.forall_mem_append.1 h
  cases above
  · exact List.forall_mem_append.2
      ⟨upper, List.forall_mem_append.2 ⟨lower, List.forall_mem_singleton.2 hf⟩⟩
  · exact List.forall_mem_append.2
      ⟨List.forall_mem_append.2 ⟨upper, List.forall_mem_singleton.2 hf⟩, lower⟩

theorem Passes.multiplyBy (passes : Passes W P) (h : ∀ g ∈ t.factors ++ t.divisors, P g)
    (above : Bool) (hf : P f) :
    ∀ g ∈ (t.multiplyBy above f).factors ++ (t.multiplyBy above f).divisors, P g := by
  obtain ⟨base, exponent⟩ := f
  have flipped : ∀ x : α, ∀ g ∈ (if Scalar.isOdd x = true then
      { t with numerator := -t.numerator } else t).factors ++ (if Scalar.isOdd x = true then
        { t with numerator := -t.numerator } else t).divisors, P g := by
    intro x
    split
    · exact h
    · exact h
  unfold Term.multiplyBy
  dsimp only
  split
  · cases above
    · exact h
    · exact h
  · split
    · exact forall_push (flipped _) above (passes.var hf)
    · exact forall_push h above hf
  · split
    · exact forall_push (flipped _) above (passes.constant hf)
    · exact forall_push h above hf
  · exact forall_push h above hf

theorem Passes.gather (passes : Passes W P) {pending : List (Factor (Node α) × Bool)}
    (waiting : ∀ p ∈ pending, W p.1) (h : ∀ g ∈ t.factors ++ t.divisors, P g) :
    ∀ g ∈ (gather pending t).factors ++ (gather pending t).divisors, P g := by
  have absorbed : ∀ {t : Term α (Node α)} {base exponent : Node α} {above : Bool},
      (∀ g ∈ t.factors ++ t.divisors, P g) → W ⟨base, exponent⟩ →
        (exponent.isUnit = true → base.isSpliced = false) →
          ∀ g ∈ (t.absorb above ⟨base, exponent⟩).factors ++
            (t.absorb above ⟨base, exponent⟩).divisors, P g := by
    intro t base exponent above h hf whole
    unfold Term.absorb
    split
    · rename_i x shown
      obtain rfl : exponent = .number x := shown
      split
      · rename_i negative
        exact passes.multiplyBy h _ (passes.crossed hf negative)
      · exact passes.multiplyBy h above (passes.listed hf whole)
    · exact passes.multiplyBy h above (passes.listed hf whole)
  have sides : ∀ {u : Term α (Node α)} (above : Bool), (∀ f ∈ u.realParts, W f) →
      ∀ p ∈ u.sides above, W p.1 := by
    intro u above each p hp
    rw [Term.sides, List.mem_append, List.mem_map, List.mem_map] at hp
    rcases hp with ⟨f, hf, rfl⟩ | ⟨f, hf, rfl⟩
    · exact each f (List.mem_append_left _ hf)
    · exact each f (List.mem_append_right _ hf)
  have scaled : ∀ {t u : Term α (Node α)} {above : Bool}, (∀ g ∈ t.factors ++ t.divisors, P g) →
      ∀ g ∈ (t.scaleBy above u).factors ++ (t.scaleBy above u).divisors, P g := by
    intro t u above h
    cases above
    · exact h
    · exact h
  fun_induction Term.gather pending t with
  | case1 t => exact h
  | case2 t base exponent above rest zero ih => exact ih (List.forall_mem_cons.1 waiting).2 h
  | case3 t exponent above rest zero unit u ih =>
    obtain ⟨first, later⟩ := List.forall_mem_cons.1 waiting
    exact ih (List.forall_mem_append.2 ⟨later, sides above (passes.product first unit)⟩) (scaled h)
  | case4 t exponent above rest zero unit u ih =>
    obtain ⟨first, later⟩ := List.forall_mem_cons.1 waiting
    exact ih (List.forall_mem_append.2 ⟨later, sides above (passes.single first unit)⟩) (scaled h)
  | case5 t exponent above rest zero unit f ih =>
    obtain ⟨first, later⟩ := List.forall_mem_cons.1 waiting
    exact ih (List.forall_mem_append.2 ⟨later, List.forall_mem_singleton.2 (passes.power first unit)⟩) h
  | case6 t exponent above rest zero unit base product single power ih =>
    obtain ⟨first, later⟩ := List.forall_mem_cons.1 waiting
    exact ih later (absorbed h first fun _ => Node.isSpliced_of_apart product single power)
  | case7 t base exponent above rest zero composite ih =>
    obtain ⟨first, later⟩ := List.forall_mem_cons.1 waiting
    exact ih later (absorbed h first fun unit => absurd unit composite)

/-- What a term lists besides the factor for an empty product comes from what it is built of. -/
theorem Passes.normal (passes : Passes W P) (n d : α) {fs gs : List (Factor (Node α))}
    (waiting : ∀ f ∈ fs ++ gs, W f) :
    ∀ f ∈ (normal n d fs gs).factors ++ (normal n d fs gs).divisors, f = Factor.empty ∨ P f := by
  obtain ⟨above, below⟩ := List.forall_mem_append.1 waiting
  have pending : ∀ p ∈ fs.map (·, true) ++ gs.map (·, false), W p.1 :=
    List.forall_mem_append.2 ⟨List.forall_mem_map.2 above, List.forall_mem_map.2 below⟩
  have start : ∀ g ∈ (⟨n, d, [], []⟩ : Term α (Node α)).factors ++
      (⟨n, d, [], []⟩ : Term α (Node α)).divisors, P g := List.forall_mem_nil _
  obtain ⟨upper, lower⟩ := List.forall_mem_append.1 (passes.gather pending start)
  have filled : ∀ {fs : List (Factor (Node α))}, (∀ f ∈ fs, P f) →
      ∀ f ∈ (if fs.isEmpty then [Factor.empty] else fs), f = Factor.empty ∨ P f := by
    intro fs each
    split
    · exact List.forall_mem_singleton.2 (.inl rfl)
    · exact fun f hf => .inr (each f hf)
  unfold Term.normal settled
  dsimp only
  split
  · exact List.forall_mem_append.2 ⟨filled upper, filled lower⟩
  · exact List.forall_mem_append.2 ⟨filled upper, filled lower⟩

end Passes

end Term

end SymbolicAlgebra
