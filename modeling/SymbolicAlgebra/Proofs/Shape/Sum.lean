/-
  The shape of sums
  =================
  The terms of a sum are *arranged* when there is at least one of them, none of them is
  certainly zero unless the sum is the term zero, none is nothing but a sum in brackets,
  and the degrees do not ascend. The degrees of the terms must compare for that: an
  undefined degree has no place in an order.

  A sum is built by taking in the terms of its summands once (`Node.contributed`) and
  sorting them. Once is enough, because the terms that a sum in brackets gives up belong
  to a sum that was arranged before: **`Node.flattened_arranged`**. Hence every sum that
  is obtained in any way is arranged (**`Node.obtained_arranged`**).
-/
import SymbolicAlgebra.Proofs.Value.Rational
import SymbolicAlgebra.Proofs.Shape.Obtained
import SymbolicAlgebra.Proofs.Algebra.Demand

namespace SymbolicAlgebra

open Scalar (SelfEqual)

/-- Scalars whose comparison is a total preorder of the numbers that equal themselves, turned around
by the sign. -/
class OrderedScalar (α : Type) [Scalar α] : Prop where
  lt_asymm : ∀ {x y : α}, SelfEqual x → SelfEqual y → Scalar.lt x y = true → Scalar.lt y x = false
  lt_weak : ∀ {x y z : α}, SelfEqual x → SelfEqual y → SelfEqual z → Scalar.lt x y = false →
    Scalar.lt y z = false → Scalar.lt x z = false
  lt_of_beq : ∀ {x y : α}, SelfEqual x → SelfEqual y → (x == y) = true →
    Scalar.lt x y = false ∧ Scalar.lt y x = false
  lt_neg : ∀ {x y : α}, SelfEqual x → SelfEqual y → Scalar.lt (-x) (-y) = Scalar.lt y x

variable {α : Type} [Scalar α]

namespace Node

/-- The terms are those of a sum, in any order. -/
structure Gathered (ts : List (Term α (Node α))) : Prop where
  some : ts ≠ []
  nonzero : (∀ t ∈ ts, t.isZero = false) ∨ ts = [Term.zero]
  plain : ∀ t ∈ ts, t.soleSum? = none

/-- The terms are arranged as those of a sum. -/
structure Arranged (ts : List (Term α (Node α))) : Prop where
  some : ts ≠ []
  nonzero : (∀ t ∈ ts, t.isZero = false) ∨ ts = [Term.zero]
  plain : ∀ t ∈ ts, t.soleSum? = none
  descending : (∀ t ∈ ts, SelfEqual t.degree) →
    ts.Pairwise fun t u => Scalar.lt t.degree u.degree = false

/-! ### Order -/

section Order

variable [OrderedScalar α] {ns : List (Node α)}

theorem precedes_eq {t u : Term α (Node α)} (ht : SelfEqual t.degree) (hu : SelfEqual u.degree) :
    precedes t u = Scalar.lt u.degree t.degree :=
  OrderedScalar.lt_neg ht hu

theorem flattened_descending (defined : ∀ t ∈ flattened ns, SelfEqual t.degree) :
    (flattened ns).Pairwise fun t u => Scalar.lt t.degree u.degree = false := by
  have members : ∀ t ∈ contributed ns, SelfEqual t.degree :=
    fun t ht => defined t ((flattened_perm ns).mem_iff.2 ht)
  have sorted : (flattened ns).Pairwise fun t u => precedes u t = false := by
    refine StableSort.sorted_pairwise ?_ ?_ members
    · intro t u ht hu first
      rw [precedes_eq ht hu] at first
      rw [precedes_eq hu ht]
      exact OrderedScalar.lt_asymm hu ht first
    · intro t u w ht hu hw first second
      rw [precedes_eq ht hu] at first
      rw [precedes_eq hu hw] at second
      rw [precedes_eq ht hw]
      exact OrderedScalar.lt_weak hw hu ht second first
  refine sorted.imp_of_mem fun ht hu order => ?_
  rwa [precedes_eq (defined _ hu) (defined _ ht)] at order

/-- Terms of one degree keep the order in which the summands contribute them. -/
theorem flattened_filter (defined : ∀ t ∈ flattened ns, SelfEqual t.degree) {d : α}
    (compares : SelfEqual d) :
    (flattened ns).filter (·.degree == d) = (contributed ns).filter (·.degree == d) := by
  refine StableSort.sorted_filter fun t ht u hu first second => ?_
  have left := defined t ((flattened_perm ns).mem_iff.2 ht)
  have right := defined u ((flattened_perm ns).mem_iff.2 hu)
  rw [precedes_eq left right]
  exact OrderedScalar.lt_weak right compares left
    (OrderedScalar.lt_of_beq right compares second).1 (OrderedScalar.lt_of_beq left compares first).2

end Order

/-! ### Sums in brackets -/

theorem soleSum?_zero : (Term.zero : Term α (Node α)).soleSum? = none := by
  have none : (Term.zero : Term α (Node α)).realFactors = [] := by
    have listed : (Term.zero : Term α (Node α)).factors = [Factor.empty] := by
      rw [Term.zero, Term.ofValue, Term.normal, List.map_nil, List.map_nil, List.append_nil,
        Term.gather, Term.settled]
      split
      · rfl
      · rfl
    rw [Term.realFactors, listed]
    exact realFactors_of_one Factor.isOne_empty []
  unfold Term.soleSum?
  rw [none]
  split
  · rfl
  · rfl

section Summands

variable {T : Term α (Node α) → Prop} {S : List (Term α (Node α)) → Prop}
  [CarriesOver fun _ => (Throughout T S : Node α → Prop)]
  (plain : ∀ ts, S ts → ∀ t ∈ ts, t.soleSum? = none)

include plain

/-- What a summand contributes has given up its brackets. -/
theorem summands_plain {n : Node α} (h : n.Throughout T S) : ∀ t ∈ n.summands, t.soleSum? = none := by
  unfold summands
  split
  · exact plain _ (throughout_sum.1 h).1
  · have wrapped : (Node.product (Term.wrap n)).Throughout T S :=
      Term.carry_wrap (Q := fun _ => Throughout T S) (p := .alone) (q := .alone) h
    dsimp only
    cases sole : (Term.wrap n).soleSum? with
    | some ts =>
      have inner : (Node.sum ts).Throughout T S :=
        carry_soleSum? (Q := fun _ => Throughout T S) (p := .alone) wrapped sole
      exact plain ts (throughout_sum.1 inner).1
    | none => exact List.forall_mem_singleton.2 sole

theorem flattened_gathered {ns : List (Node α)} (inner : ∀ n ∈ ns, n.Throughout T S) :
    Gathered (flattened ns) where
  some := flattened_ne_nil ns
  nonzero := by
    by_cases zero : contributed ns = [Term.zero]
    · right
      rw [flattened, ← contributed, zero]
      rfl
    · left
      intro t ht
      rcases mem_flattened ht with ⟨only, -⟩ | ⟨-, present⟩
      · exact absurd only zero
      · exact present
  plain t ht := by
    rcases mem_flattened ht with ⟨-, rfl⟩ | ⟨⟨n, hn, member⟩, -⟩
    · exact soleSum?_zero
    · exact summands_plain plain (inner n hn) t member

end Summands

/-- A sum is arranged if every sum is that stands inside its summands. -/
theorem flattened_arranged [OrderedScalar α] {T : Term α (Node α) → Prop}
    [CarriesOver fun _ => (Throughout T Arranged : Node α → Prop)] {ns : List (Node α)}
    (inner : ∀ n ∈ ns, n.Throughout T Arranged) : Arranged (flattened ns) where
  some := (flattened_gathered (fun _ arranged => arranged.plain) inner).some
  nonzero := (flattened_gathered (fun _ arranged => arranged.plain) inner).nonzero
  plain := (flattened_gathered (fun _ arranged => arranged.plain) inner).plain
  descending := flattened_descending

end Node

/-! ### Every sum -/

/-- Every sum that is obtained by building it from obtained nodes, by reading a text, taking
expressions apart and operating on them is arranged; and where the degrees of a sum that is built
compare, terms of equal degree stand in the order in which its summands contribute them. -/
theorem Node.obtained_arranged [OrderedScalar α] :
    (∀ ts : List (Term α (Node α)), (Node.sum ts).Obtained → Arranged ts) ∧
      ∀ ns : List (Node α), (∀ n ∈ ns, n.Obtained) →
        Arranged (flattened ns) ∧
          ((∀ t ∈ flattened ns, SelfEqual t.degree) → ∀ d : α, SelfEqual d →
            (flattened ns).filter (·.degree == d) = (contributed ns).filter (·.degree == d)) := by
  have uniform : Uniform (Throughout (fun _ => True) Arranged : Node α → Prop) :=
    uniform_throughout fun _ _ _ _ => trivial
  have arranged : ∀ ts : List (Term α (Node α)), (Node.sum ts).Obtained → Arranged ts := by
    intro ts obtained
    have throughout := obtained.throughout (T := fun _ => True) (fun _ _ _ _ => trivial)
      fun ns => flattened_arranged
    exact (throughout_sum.1 throughout).1
  refine ⟨arranged, fun ns obtained => ⟨arranged _ (.sum obtained), fun defined d compares => ?_⟩⟩
  exact flattened_filter defined compares

instance : OrderedScalar ℚ where
  lt_asymm _ _ less := by
    have less := of_decide_eq_true less
    exact decide_eq_false less.asymm
  lt_weak _ _ _ first second := by
    have first := of_decide_eq_false first
    have second := of_decide_eq_false second
    exact decide_eq_false (by linarith)
  lt_of_beq _ _ same := by
    have same := of_decide_eq_true same
    subst same
    exact ⟨decide_eq_false (lt_irrefl _), decide_eq_false (lt_irrefl _)⟩
  lt_neg _ _ := decide_eq_decide.2 neg_lt_neg_iff

/-- A number, a sum in brackets, a product that is zero and a square, brought in order. -/
theorem Node.obtained_arranged_reordered :
    let x : Node ℚ := .var ⟨'x', 0⟩ false
    let inner : Node ℚ := .sum (flattened [x, .number 3])
    let ns := [.number 2, .power ⟨inner, .number 1⟩, .product (Term.ofNodes 0 1 [x] []),
      .power ⟨x, .number 2⟩]
    (∀ n ∈ ns, n.Obtained) ∧ Arranged (flattened ns) ∧
      (flattened ns).filter (·.degree == 0) = (contributed ns).filter (·.degree == 0) := by
  intro x inner ns
  have var : x.Obtained := .var _ _
  have sum : inner.Obtained := .sum (List.forall_mem_cons.2 ⟨var,
    List.forall_mem_singleton.2 (.number 3)⟩)
  have all : ∀ n ∈ ns, n.Obtained := by
    refine List.forall_mem_cons.2 ⟨.number 2, List.forall_mem_cons.2 ⟨.power sum (.number 1),
      List.forall_mem_cons.2 ⟨?_, List.forall_mem_singleton.2 (.power var (.number 2))⟩⟩⟩
    exact .product 0 1 (List.forall_mem_singleton.2 var) (List.forall_mem_nil _)
  obtain ⟨arranged, stable⟩ := obtained_arranged.2 ns all
  exact ⟨all, arranged, stable (fun t _ => beq_self_eq_true _) 0 (beq_self_eq_true _)⟩

end SymbolicAlgebra
