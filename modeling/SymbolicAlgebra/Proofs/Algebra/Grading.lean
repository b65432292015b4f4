/-
  Gradings
  ========
  The height of a tree and the depth of its bases grow by one with every step towards
  the root, and building terms and sums of parts does not raise them. A *grading* is a
  family of properties that behaves so: an expression of some grade has parts of the
  grade before, and what has such parts is of the grade. Exponents may be graded by a
  family of their own.

  What canonical building and reducing do to grades is the same for all gradings, and is
  shown here once: a term is graded by what it is built of (`Grading.normal`), a sum by
  its summands (`Grading.flattened`), and a reduction that raises no grade among the parts
  raises none of the whole (`Grading.reduceAt_succ`).
-/
import SymbolicAlgebra.Proofs.Algebra.Splice
import SymbolicAlgebra.Proofs.CarryOver.Property

namespace SymbolicAlgebra

variable {α : Type} [Scalar α]

/-- Grades of expressions, and grades of the exponents over bases of a grade. -/
structure Grading (P E : Nat → Node α → Prop) : Prop where
  mono : ∀ {j k n}, P j n → j ≤ k → P k n
  exponent_mono : ∀ {j k e}, E j e → j ≤ k → E k e
  number : ∀ k x, P k (.number x)
  constant : ∀ k c negative, P k (.constant c negative)
  var : ∀ k v negative, P k (.var v negative)
  exponent : ∀ k x, E k (.number x)
  power : ∀ {k f}, P k (.power f) ↔ ∃ j, k = j + 1 ∧ P j f.base ∧ E j f.exponent
  real : ∀ {k t}, P k (.product t) →
    ∃ j, k = j + 1 ∧ ∀ f ∈ t.realParts, P j f.base ∧ E j f.exponent
  product : ∀ {k t},
    (∀ f ∈ t.factors ++ t.divisors, f = Factor.empty ∨ P k f.base ∧ E k f.exponent) →
    P (k + 1) (.product t)
  sum : ∀ {k ts}, P k (.sum ts) ↔ ∃ j, k = j + 1 ∧ ts ≠ [] ∧ ∀ t ∈ ts, P j (.product t)
  unary : ∀ {k f x}, P k (.unary f x) ↔ ∃ j, k = j + 1 ∧ P j x
  binary : ∀ {k f x y}, P k (.binary f x y) ↔ ∃ j, k = j + 1 ∧ P j x ∧ P j y

/-- A factor whose base and exponent are of the grade. -/
structure Factor.Under (P E : Nat → Node α → Prop) (k : Nat) (f : Factor (Node α)) : Prop where
  base : P k f.base
  exponent : E k f.exponent

/-- As a factor the node is of the grade, or it is a term of such factors. -/
def Node.Fits (P E : Nat → Node α → Prop) (k : Nat) (n : Node α) : Prop :=
  n.asFactor.Under P E k ∨ ∃ t, n = .product t ∧ P (k + 1) (.product t)

theorem Term.fits {P E : Nat → Node α → Prop} {k : Nat} {t : Term α (Node α)}
    (h : P (k + 1) (.product t)) : (Node.product t).Fits P E k :=
  .inr ⟨t, rfl, h⟩

namespace Grading

variable {P E : Nat → Node α → Prop} (g : Grading P E) {j k : Nat}

include g

/-! ### Parts -/

theorem under_mono {f : Factor (Node α)} (h : f.Under P E j) (le : j ≤ k) : f.Under P E k :=
  ⟨g.mono h.base le, g.exponent_mono h.exponent le⟩

theorem under_empty (k : Nat) : (Factor.empty : Factor (Node α)).Under P E k :=
  ⟨g.number k 1, g.exponent k 0⟩

theorem under_number {n : Node α} (h : P k n) (x : α) :
    (⟨n, .number x⟩ : Factor (Node α)).Under P E k :=
  ⟨h, g.exponent k x⟩

theorem parts {t : Term α (Node α)} (h : P (k + 1) (.product t)) :
    ∀ f ∈ t.realParts, f.Under P E k := by
  obtain ⟨j, same, each⟩ := g.real h
  obtain rfl := Nat.succ.inj same
  intro f hf
  exact ⟨(each f hf).1, (each f hf).2⟩

/-- What dissolves is of a lower grade than it counts for. -/
theorem parts_below {t : Term α (Node α)} (h : P k (.product t)) :
    ∀ f ∈ t.realParts, f.Under P E k := by
  obtain ⟨j, rfl, -⟩ := g.real h
  intro f hf
  exact g.under_mono (g.parts h f hf) (Nat.le_succ j)

theorem factor {f : Factor (Node α)} (h : P k (.power f)) : f.Under P E k := by
  obtain ⟨j, rfl, base, exponent⟩ := g.power.1 h
  exact g.under_mono ⟨base, exponent⟩ (Nat.le_succ j)

theorem term {ts : List (Term α (Node α))} (h : P k (.sum ts)) : ∀ t ∈ ts, P k (.product t) := by
  obtain ⟨j, rfl, -, each⟩ := g.sum.1 h
  intro t ht
  exact g.mono (each t ht) (Nat.le_succ j)

theorem single {t : Term α (Node α)} (h : P k (.sum [t])) : P k (.product t) := by
  exact g.term h t List.mem_cons_self

theorem asFactor {n : Node α} (h : P k n) : n.asFactor.Under P E k := by
  cases n with
  | power f => exact g.factor h
  | _ => exact g.under_number h 1

/-- What is of the lowest grade has no parts. -/
theorem leaf {n : Node α} (h : P 0 n) : (∃ x, n = .number x) ∨
    (∃ c negative, n = .constant c negative) ∨ ∃ v negative, n = .var v negative := by
  cases n with
  | number x => exact .inl ⟨x, rfl⟩
  | constant c negative => exact .inr (.inl ⟨c, negative, rfl⟩)
  | var v negative => exact .inr (.inr ⟨v, negative, rfl⟩)
  | power f =>
    obtain ⟨j, same, -⟩ := g.power.1 h
    cases same
  | product t =>
    obtain ⟨j, same, -⟩ := g.real h
    cases same
  | sum ts =>
    obtain ⟨j, same, -⟩ := g.sum.1 h
    cases same
  | unary f x =>
    obtain ⟨j, same, -⟩ := g.unary.1 h
    cases same
  | binary f x y =>
    obtain ⟨j, same, -⟩ := g.binary.1 h
    cases same

/-! ### Building -/

theorem passes (k : Nat) : Term.Passes (Factor.Under P E k : Factor (Node α) → Prop)
    (Factor.Under P E k) where
  product under _ := g.parts_below under.base
  single under _ := g.parts_below (g.single under.base)
  power under _ := g.factor under.base
  listed under _ := under
  crossed under _ := g.under_number under.base _
  var under := ⟨g.var k _ false, under.exponent⟩
  constant under := ⟨g.constant k _ false, under.exponent⟩

/-- A term is of the grade after that of the factors it is built from. -/
theorem normal (n d : α) {fs gs : List (Factor (Node α))}
    (each : ∀ f ∈ fs ++ gs, f.Under P E k) : P (k + 1) (.product (Term.normal n d fs gs)) := by
  apply g.product
  intro f hf
  rcases (g.passes k).normal n d each f hf with empty | under
  · exact .inl empty
  · exact .inr ⟨under.base, under.exponent⟩

theorem zero (k : Nat) : P (k + 1) (.product (Term.zero : Term α (Node α))) :=
  g.normal 0 1 (List.forall_mem_nil _)

/-- A term whose coefficient alone is changed keeps its grade. -/
theorem renormal {t : Term α (Node α)} (h : P (k + 1) (.product t)) (n d : α) :
    P (k + 1) (.product (Term.normal n d t.realFactors t.realDivisors)) :=
  g.normal n d (g.parts h)

section Fits

variable {n : Node α}

theorem fits_number (k : Nat) (x : α) : (Node.number x).Fits P E k :=
  .inl (g.asFactor (g.number k x))

theorem grade (h : n.Fits P E k) : P (k + 1) n := by
  rcases h with under | ⟨t, rfl, term⟩
  · cases n with
    | power f => exact g.power.2 ⟨k, rfl, under.base, under.exponent⟩
    | _ => exact g.mono under.base (Nat.le_succ k)
  · exact term

theorem wrap (h : n.Fits P E k) : P (k + 1) (.product (Term.wrap n)) := by
  have whole := g.grade h
  unfold Term.wrap
  split
  · exact whole
  · exact g.single whole
  · rename_i other _
    rcases h with under | ⟨t, same, -⟩
    · exact g.normal 1 1 (List.forall_mem_singleton.2 under)
    · exact absurd same (other t)

theorem summands (h : n.Fits P E k) : ∀ t ∈ n.summands, P (k + 1) (.product t) := by
  have wrapped := g.wrap h
  have terms : ∀ {us : List (Term α (Node α))}, P k (.sum us) →
      ∀ u ∈ us, P (k + 1) (.product u) := by
    intro us sum u hu
    obtain ⟨j, rfl, -, each⟩ := g.sum.1 sum
    exact g.mono (each u hu) (by omega)
  unfold Node.summands
  split
  · rcases h with under | ⟨t, same, -⟩
    · exact terms under.base
    · cases same
  · dsimp only
    cases sole : (Term.wrap n).soleSum? with
    | none => exact List.forall_mem_singleton.2 wrapped
    | some us =>
      obtain ⟨-, e, -, above, -⟩ := Term.soleSum?_eq_some.1 sole
      have member : ⟨.sum us, e⟩ ∈ (Term.wrap n).realParts :=
        List.mem_append_left _ (above ▸ List.mem_cons_self)
      exact terms (g.parts wrapped _ member).base

/-- A sum is of the second grade after that of its summands, as factors. -/
theorem flattened {ns : List (Node α)} (each : ∀ n ∈ ns, n.Fits P E k) :
    P (k + 2) (.sum (Node.flattened ns)) := by
  refine g.sum.2 ⟨k + 1, rfl, Node.flattened_ne_nil ns, ?_⟩
  intro t ht
  rcases Node.mem_flattened ht with ⟨-, rfl⟩ | ⟨⟨n, hn, member⟩, -⟩
  · exact g.zero k
  · exact g.summands (each n hn) t member

theorem flattenedTerms {ts : List (Term α (Node α))} (each : ∀ t ∈ ts, P (k + 1) (.product t)) :
    P (k + 2) (.sum (Node.flattenedTerms ts)) :=
  g.flattened (List.forall_mem_map.2 fun t ht => Term.fits (each t ht))

end Fits

/-! ### Reducing -/

section Reduce

variable {reduce : Node α → Node α} (keeps : ∀ {k n}, P k n → P k (reduce n))
  (exponents : ∀ {k e}, E k e → E k (reduce e))

include keeps exponents

theorem reduceFactor {f : Factor (Node α)} (h : f.Under P E k) :
    (Node.reduceFactor reduce f).asFactor.Under P E k := by
  have base := keeps h.base
  have exponent := exponents h.exponent
  have raised : ∀ e : Node α, E k e → (Factor.raised (reduce f.base) e).Under P E k := by
    intro e he
    generalize reduce f.base = b at base
    unfold Factor.raised
    split
    · split
      · exact g.under_number (g.factor base).base _
      · exact ⟨base, he⟩
    · exact ⟨base, he⟩
  unfold Node.reduceFactor
  dsimp only
  split
  · rename_i x shown
    split
    · exact g.asFactor (g.number k 1)
    · split
      · exact g.asFactor base
      · exact raised _ (shown ▸ exponent)
  · exact raised _ exponent

/-- The term that a term becomes when its factors are reduced. -/
theorem reducedFactors {t : Term α (Node α)} (each : ∀ f ∈ t.realParts, f.Under P E k) :
    P (k + 1) (.product (Term.ofNodes t.numerator t.denominator
      (t.realFactors.map (Node.reduceFactor reduce))
      (t.realDivisors.map (Node.reduceFactor reduce)))) := by
  have factors : ∀ {fs : List (Factor (Node α))}, (∀ f ∈ fs, f.Under P E k) →
      ∀ h ∈ (fs.map (Node.reduceFactor reduce)).map Node.asFactor, h.Under P E k := by
    intro fs each
    rw [List.map_map, List.forall_mem_map]
    intro f hf
    exact g.reduceFactor keeps exponents (each f hf)
  obtain ⟨above, below⟩ := Term.forall_realParts.1 each
  exact g.normal _ _ (List.forall_mem_append.2 ⟨factors above, factors below⟩)

theorem reduceTerm {t : Term α (Node α)} (each : ∀ f ∈ t.realParts, f.Under P E k) :
    (Node.reduceTerm reduce t).Fits P E k := by
  have built := g.reducedFactors keeps exponents each
  unfold Node.reduceTerm
  dsimp only
  generalize Term.ofNodes t.numerator t.denominator (t.realFactors.map (Node.reduceFactor reduce))
    (t.realDivisors.map (Node.reduceFactor reduce)) = reduced at built
  have itself : (Node.product reduced).Fits P E k := Term.fits built
  split
  · exact g.fits_number k 0
  · split
    · split
      · exact g.fits_number k _
      · rename_i f only
        have member : f ∈ reduced.realParts := List.mem_append_left _ (only ▸ List.mem_cons_self)
        have small := g.reduceFactor keeps exponents (g.parts built f member)
        split
        · exact .inl small
        · split
          · split
            · exact .inl (g.asFactor (g.var k _ _))
            · exact .inl (g.asFactor (g.constant k _ _))
            · exact itself
          · exact itself
      · exact itself
    · exact itself

end Reduce

/-- One step more of reducing raises no grade if the steps before raise none. -/
theorem reduceAt_succ {height : Nat} (keeps : ∀ {k n}, P k n → P k (Node.reduceAt height n))
    (exponents : ∀ {k e}, E k e → E k (Node.reduceAt height e)) {n : Node α} (h : P k n) :
    P k (Node.reduceAt (height + 1) n) := by
  cases n with
  | number | constant | var => exact h
  | power f =>
    obtain ⟨j, rfl, base, exponent⟩ := g.power.1 h
    exact g.grade (.inl (g.reduceFactor keeps exponents ⟨base, exponent⟩))
  | product t =>
    obtain ⟨j, rfl, -⟩ := g.real h
    exact g.grade (g.reduceTerm keeps exponents (g.parts h))
  | sum ts =>
    obtain ⟨j, rfl, some, each⟩ := g.sum.1 h
    have terms : ∀ t ∈ ts, ∃ i, j = i + 1 ∧
        (Node.reduceTerm (Node.reduceAt height) t).Fits P E i := by
      intro t ht
      obtain ⟨i, rfl, -⟩ := g.real (each t ht)
      exact ⟨i, rfl, g.reduceTerm keeps exponents (g.parts (each t ht))⟩
    obtain ⟨t, ht⟩ := List.exists_mem_of_ne_nil ts some
    obtain ⟨i, rfl, -⟩ := terms t ht
    have fits : ∀ t ∈ ts, (Node.reduceTerm (Node.reduceAt height) t).Fits P E i := by
      intro t ht
      obtain ⟨i', same, fits⟩ := terms t ht
      obtain rfl := Nat.succ.inj same
      exact fits
    rcases ts with _ | ⟨t, _ | ⟨u, ts⟩⟩
    · exact absurd rfl some
    · exact g.mono (g.grade (fits t List.mem_cons_self)) (by omega)
    · exact g.flattened (List.forall_mem_map.2 fits)
  | unary f x =>
    obtain ⟨j, rfl, argument⟩ := g.unary.1 h
    exact g.unary.2 ⟨j, rfl, keeps argument⟩
  | binary f x y =>
    obtain ⟨j, rfl, left, right⟩ := g.binary.1 h
    exact g.binary.2 ⟨j, rfl, keeps left, keeps right⟩

end Grading

end SymbolicAlgebra
