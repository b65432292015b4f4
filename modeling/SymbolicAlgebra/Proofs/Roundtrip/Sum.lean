/-
  Sums that are read back
  =======================
  A difference binds tighter than a sum: `a + b - c + d` is read as the sum of `a`,
  `b - c` and `d`, from the left to the right. Each of these operations appends the terms
  of its right side to those of its left (**`Node.add_addends`**), unless two single
  terms meet of which one is a fraction; these come over a common denominator.

  `Node.Joins` follows the reading of a text and asks that this never happens. Then the
  text of a steady sum is read as the sum itself: **`Node.builds_sum`**.
-/
import SymbolicAlgebra.Proofs.Roundtrip.Product
import SymbolicAlgebra.Proofs.Steady.Sum

namespace SymbolicAlgebra

open Node

variable {α : Type} [FieldScalar α]

/-! ### Adding -/

namespace Node

variable {m n : Node α} {t u : Term α (Node α)} {ts us : List (Term α (Node α))}

theorem addends_of_other (other : ∀ ts, m ≠ .sum ts) : addends m = [Term.wrap m] := by
  cases m with
  | sum ts => exact absurd rfl (other ts)
  | _ => rfl

/-- A node that adds any other number of terms than one is a sum of these. -/
theorem eq_sum_of_addends (h : addends n = ts) (several : ∀ t, ts ≠ [t]) : n = .sum ts := by
  by_cases sum : ∃ us, n = .sum us
  · obtain ⟨us, rfl⟩ := sum
    exact congrArg Node.sum h
  · rw [addends_of_other fun us same => sum ⟨us, same⟩] at h
    exact absurd h.symm (several _)

namespace SteadySum

theorem sublist (h : SteadySum ts) (inside : us.Sublist ts) (some : us ≠ []) : SteadySum us where
  some := some
  steady t ht := h.steady t (inside.subset ht)
  plain t ht := h.plain t (inside.subset ht)
  unlike := h.unlike.sublist inside
  ordered := h.ordered.sublist inside

theorem flattenedTerms_eq (h : SteadySum ts) : flattenedTerms ts = ts :=
  flattened_eq (flatMap_summands h.plain) h.some (fun t ht => (h.steady t ht).nonzero) h.ordered

theorem simplifyTerms_eq (h : SteadySum ts) : simplifyTerms (flattenedTerms ts) = .ok ts := by
  rw [h.flattenedTerms_eq]
  exact h.simplifySum_eq _ _

end SteadySum

/-- Two single terms have no divisors. -/
def Direct (ts us : List (Term α (Node α))) : Prop :=
  ∀ t u, ts = [t] → us = [u] → t.realDivisors = [] ∧ u.realDivisors = []

/-- Two terms without divisors are added to each other as they are. -/
theorem addTerms_direct (steady : SteadySum [t, u]) (left : t.realDivisors = [])
    (right : u.realDivisors = []) : addTerms simplifyTerms t u = .ok (.sum [t, u]) := by
  obtain ⟨first, second⟩ := List.forall_mem_cons.1 steady.steady
  have second := second u List.mem_cons_self
  have unlike : t.isLike u = false := (List.pairwise_cons.1 steady.unlike).1 u List.mem_cons_self
  have same : ∀ t : Term α (Node α), t.realDivisors = [] → t.overShared [] = t := by
    intro t none
    rw [Term.overShared, none]
    rfl
  have rebuilt := first.rebuilt
  have rebuilt' := second.rebuilt
  rw [left] at rebuilt
  rw [right] at rebuilt'
  have shared : (Tally.ofList Factor.same []).union Factor.same
      (Tally.ofList (Factor.same (α := α)) []) = [] := rfl
  rw [addTerms, second.nonzero, first.nonzero, left, right, shared]
  simp only [same t left, same u right, unlike, rebuilt, rebuilt', left, steady.simplifyTerms_eq]
  rfl

variable [ExactScalar α]

theorem wrap_number_bare (x : α) : (Term.wrap (.number x)).Bare := by
  obtain ⟨-, -, factors, divisors⟩ :=
    Term.normal_parts (n := x) Term.none_present ExactScalar.one_lt_zero
  rw [Term.wrap_number]
  exact ⟨factors, divisors⟩

/-- Adding appends the terms of the one node to those of the other. -/
theorem add_addends (left : addends m = ts) (right : addends n = us) (steady : SteadySum (ts ++ us))
    (direct : Direct ts us) : m.add n = .ok (.sum (ts ++ us)) := by
  unfold add addWith
  split
  · -- two numbers would be like each other
    rename_i x y
    subst left right
    have unlike := (List.pairwise_cons.1 steady.unlike).1 _ (List.mem_singleton_self _)
    have like : (Term.wrap (.number x)).isLike (Term.wrap (.number y)) = true :=
      (wrap_number_bare x).isLike (wrap_number_bare y)
    rw [like] at unlike
    cases unlike
  · rename_i ws
    have same : ws = ts := left
    rw [same, right, steady.simplifyTerms_eq]
    rfl
  · rename_i ws other
    have same : ws = us := right
    rw [addends_of_other other] at left
    subst left same
    obtain ⟨plain, -⟩ := List.forall_mem_cons.1 steady.plain
    obtain ⟨first, -⟩ := List.forall_mem_cons.1 steady.steady
    have alone : flattened [m] = [Term.wrap m] := by
      apply flattened_eq _ (by simp) (List.forall_mem_singleton.2 first.nonzero)
        (List.pairwise_singleton _ _)
      rw [List.flatMap_singleton, Term.summands_of_wrap rfl plain]
    rw [alone, steady.simplifyTerms_eq]
    rfl
  · rename_i sum sum' _
    rw [addends_of_other sum] at left
    rw [addends_of_other sum'] at right
    subst left right
    obtain ⟨divisors, divisors'⟩ := direct _ _ rfl rfl
    exact addTerms_direct steady divisors divisors'

/-- The terms of a difference, if those of the opposite of its right side are known. -/
theorem subtract_addends (left : addends m = ts) (right : addends n.negate = us)
    (steady : SteadySum (ts ++ us)) (direct : Direct ts us) :
    m.subtract n = .ok (.sum (ts ++ us)) := add_addends left right steady direct

end Node

/-- The term is read as one that is taken from the difference in front of it: it is written behind
a minus sign, and what is written there does not start with another one. -/
def Term.isSubtracted (t : Term α (Node α)) : Bool :=
  (Node.product t).isNegative && !startsMinus t.negate.toText

/-- No single terms that are fractions meet when the rest of the terms is read behind a sum and the
difference at its end. -/
def Node.Joins (front chain : List (Term α (Node α))) : List (Term α (Node α)) → Prop
  | [] => Direct front chain
  | u :: us =>
    if u.isSubtracted then Direct chain [u] ∧ Joins front (chain ++ [u]) us
    else Direct front chain ∧ Joins (front ++ chain) [u] us

/-! ### Phrases of several terms -/

/-- The phrase adds the terms of its last difference to those in front of it. -/
def Phrase.Trails (front chain : List (Term α (Node α))) : Phrase .round .sum → Prop
  | .ofDifference q => front = [] ∧ ∃ m, q.node α = .ok m ∧ addends m = chain
  | .plus p q => ∃ m k, p.node α = .ok m ∧ addends m = front ∧ q.node α = .ok k ∧ addends k = chain

namespace Phrase.Trails

variable [ExactScalar α] {front chain : List (Term α (Node α))} {u : Term α (Node α)} {k : Node α}
  {p : Phrase .round .sum} {q : Phrase .round .product}

/-- The terms of such a phrase. -/
theorem node_eq (h : p.Trails front chain) (steady : SteadySum (front ++ chain))
    (direct : Direct front chain) :
    ∃ n, p.node α = .ok n ∧ addends n = front ++ chain := by
  cases p with
  | ofDifference q =>
    obtain ⟨rfl, m, node, terms⟩ := h
    exact ⟨m, node, terms⟩
  | plus p q =>
    obtain ⟨m, k, node, terms, node', terms'⟩ := h
    refine ⟨.sum (front ++ chain), ?_, rfl⟩
    rw [Phrase.node, node, node']
    exact add_addends terms terms' steady direct

/-- A term that is added starts a difference of its own. -/
theorem plus (h : p.Trails front chain) (steady : SteadySum (front ++ chain))
    (direct : Direct front chain) (node : q.node α = .ok k) (term : addends k = [u]) :
    (Phrase.plus p (.ofProduct q)).Trails (front ++ chain) [u] := by
  obtain ⟨m, before, terms⟩ := h.node_eq steady direct
  exact ⟨m, k, before, terms, node, term⟩

/-- A term that is subtracted is taken from the last difference. -/
theorem less (h : p.Trails front chain) (steady : SteadySum (chain ++ [u]))
    (direct : Direct chain [u]) (node : q.node α = .ok k) (term : addends k.negate = [u]) :
    (p.less q).Trails front (chain ++ [u]) := by
  have taken : ∀ {x : Phrase .round .difference} {m : Node α}, x.node α = .ok m →
      addends m = chain → (Phrase.minus x q).node α = .ok (.sum (chain ++ [u])) := by
    intro x m before terms
    rw [Phrase.node, before, node]
    exact subtract_addends terms term steady direct
  cases p with
  | ofDifference x =>
    obtain ⟨rfl, m, before, terms⟩ := h
    exact ⟨rfl, _, taken before terms, rfl⟩
  | plus x z =>
    obtain ⟨m, l, first, terms, before, terms'⟩ := h
    exact ⟨m, _, first, terms, taken before terms', rfl⟩

end Phrase.Trails

/-! ### Opposite terms -/

namespace Term

variable [ExactScalar α] [ReadableScalar α] {t : Term α (Node α)}

namespace Canonical

variable (h : t.Canonical)

include h

theorem negate_eq : t.negate = normal (-t.numerator) t.denominator t.realFactors t.realDivisors := by
  have opposite := negate_normal (n := t.numerator) h.present h.positive
  rwa [h.rebuilt] at opposite

theorem negate_parts : t.negate.numerator = -t.numerator ∧ t.negate.denominator = t.denominator ∧
    t.negate.SameParts t := by
  obtain ⟨numerator, denominator, factors, divisors⟩ :=
    normal_parts (n := -t.numerator) h.present h.positive
  rw [h.negate_eq]
  exact ⟨numerator, denominator, factors, divisors⟩

theorem negate_negate : t.negate.negate = t := by
  rw [h.negate_eq, negate_normal h.present h.positive, neg_neg, h.rebuilt]

end Canonical

theorem Written.negate (written : t.Written) (h : t.Canonical) : t.negate.Written := by
  obtain ⟨numerator, denominator, factors, divisors⟩ := h.negate_parts
  constructor
  · rw [numerator]
    exact ReadableScalar.finite_neg written.numerator
  · rw [denominator]
    exact written.denominator
  · rw [factors]
    exact written.factors
  · rw [divisors]
    exact written.divisors
  · rw [factors]
    exact written.remainder

/-- What is written of the term behind others can be read: the term itself, or its opposite behind a
minus sign. -/
def Follows (t : Term α (Node α)) : Prop :=
  if (Node.product t).isNegative then t.negate.Regular ∧ t.negate.Detachable else t.Regular

end Term

/-! ### Terms, one after the other -/

/-- The text spells a phrase of these terms. -/
def Chains (text : String) (front chain : List (Term α (Node α))) : Prop :=
  ∃ p : Phrase .round .sum, p.Spelled false text ∧ p.Trails front chain

namespace Chains

variable [ExactScalar α] [ReadableScalar α] {text : String} {front chain : List (Term α (Node α))}
  {u : Term α (Node α)}

/-- A term behind a minus sign. -/
theorem subtracted (h : Chains text front chain) (written : u.Written) (follows : u.Follows)
    (behind : u.isSubtracted = true) (steady : SteadySum (chain ++ [u])) (direct : Direct chain [u]) :
    Chains (text ++ addendText u) front (chain ++ [u]) := by
  have member : u ∈ chain ++ [u] := List.mem_append_right _ (List.mem_singleton_self u)
  have canonical := (steady.steady u member).canonical
  unfold Term.isSubtracted at behind
  rw [Bool.and_eq_true, Bool.not_eq_true'] at behind
  obtain ⟨negative, unsigned⟩ := behind
  rw [Term.Follows, if_pos negative] at follows
  obtain ⟨regular, detachable⟩ := follows
  rcases Term.opens_plainest regular (written.negate canonical) detachable with bare | ⟨b, k, sign, -⟩
  · obtain ⟨p, spelled, trails⟩ := h
    obtain ⟨q, spelled', node⟩ := bare
    have term : addends u.negate.plainest.negate = [u] := by
      apply Term.addends_of_wrap _ (steady.plain u member)
      rw [Term.wrap_negate, regular.wrap_plainest regular.nonzero, canonical.negate_negate]
    refine ⟨p.less q, ?_, trails.less steady direct node term⟩
    rw [addendText, if_pos negative]
    exact spelled.sign spelled' .minus (by decide) rfl
      (fun squeezes first => squeezes.minus (by decide) (first rfl)) (Phrase.symbols_less p q)
  · rw [sign] at unsigned
    simp [startsMinus] at unsigned

/-- A term behind a plus sign, which two minus signs are as well. -/
theorem added (h : Chains text front chain) (written : u.Written) (follows : u.Follows)
    (canonical : u.Canonical) (plain : u.soleSum? = none) (behind : u.isSubtracted = false)
    (steady : SteadySum (front ++ chain)) (direct : Direct front chain) :
    Chains (text ++ addendText u) (front ++ chain) [u] := by
  obtain ⟨p, spelled, trails⟩ := h
  unfold addendText
  unfold Term.Follows at follows
  cases negative : (Node.product u).isNegative with
  | false =>
    rw [negative, if_neg (by simp)] at follows
    rw [if_neg (by simp)]
    obtain ⟨q, spelled', node⟩ := (Term.leads_plainest follows written).toBuilds
    have term : addends u.plainest = [u] :=
      Term.addends_of_wrap (follows.wrap_plainest follows.nonzero) plain
    exact ⟨.plus p (.ofProduct q), spelled.sign spelled' .plus (by decide) rfl
      (fun squeezes _ => squeezes.after " + " fun _ => rfl) rfl, trails.plus steady direct node term⟩
  | true =>
    rw [negative, if_pos rfl] at follows
    obtain ⟨regular, detachable⟩ := follows
    rw [if_pos rfl]
    rw [Term.isSubtracted, negative, Bool.true_and, Bool.not_eq_false'] at behind
    rcases Term.opens_plainest regular (written.negate canonical) detachable with
      bare | ⟨b, k, sign, -, rest, opposite⟩
    · obtain ⟨c, tail, shape, -, other⟩ := bare.unsigned
      rw [startsMinus, shape] at behind
      simp [other] at behind
    · obtain ⟨q, spelled', node⟩ := rest
      have term : addends k = [u] := by
        apply Term.addends_of_wrap _ plain
        rw [opposite, regular.wrap_plainest regular.nonzero, canonical.negate_negate]
      refine ⟨.plus p (.ofProduct q), ?_, trails.plus steady direct node term⟩
      have signs : " - " ++ ("-" ++ b) = " - " ++ "-" ++ b := String.append_assoc.symm
      rw [sign, signs]
      exact spelled.sign spelled' .plus (by decide) rfl
        (fun squeezes _ => Token.squeezes_minus_minus.append squeezes) rfl

/-- Terms behind a text of some terms. -/
theorem addends {rest : List (Term α (Node α))} (h : Chains text front chain) (some : chain ≠ [])
    (written : ∀ u ∈ rest, u.Written) (follows : ∀ u ∈ rest, u.Follows)
    (steady : SteadySum (front ++ chain ++ rest)) (joins : Joins front chain rest) :
    ∃ front' chain', Chains (text ++ String.join (rest.map addendText)) front' chain' ∧
      front' ++ chain' = front ++ chain ++ rest ∧ Direct front' chain' := by
  induction rest generalizing text front chain with
  | nil =>
    refine ⟨front, chain, ?_, (List.append_nil _).symm, joins⟩
    simpa using h
  | cons u us ih =>
    obtain ⟨first, later⟩ := List.forall_mem_cons.1 written
    obtain ⟨behind, others⟩ := List.forall_mem_cons.1 follows
    rw [List.map_cons, String.join_cons, ← String.append_assoc]
    rw [Joins] at joins
    cases subtracted : u.isSubtracted with
    | true =>
      rw [subtracted, if_pos rfl] at joins
      have inside : (chain ++ [u]).Sublist (front ++ chain ++ u :: us) := by
        simp
      have longer :=
        h.subtracted first behind subtracted (steady.sublist inside (by simp)) joins.1
      have whole : front ++ (chain ++ [u]) ++ us = front ++ chain ++ u :: us := by simp
      obtain ⟨front', chain', result⟩ :=
        ih longer (by simp) later others (by rwa [whole]) joins.2
      rw [whole] at result
      exact ⟨front', chain', result⟩
    | false =>
      rw [subtracted, if_neg (by simp)] at joins
      have inside : (front ++ chain).Sublist (front ++ chain ++ u :: us) :=
        List.sublist_append_left _ _
      have member : u ∈ front ++ chain ++ u :: us := List.mem_append_right _ List.mem_cons_self
      have longer := h.added first behind (steady.steady u member).canonical (steady.plain u member)
        subtracted (steady.sublist inside (by simp [some])) joins.1
      have whole : front ++ chain ++ [u] ++ us = front ++ chain ++ u :: us := by simp
      obtain ⟨front', chain', result⟩ :=
        ih longer (by simp) later others (by rwa [whole]) joins.2
      rw [whole] at result
      exact ⟨front', chain', result⟩

end Chains

/-- The text of a steady sum of several terms builds the sum itself, if its terms are added without
a common denominator. -/
theorem Node.builds_sum [ExactScalar α] [ReadableScalar α] {t : Term α (Node α)}
    {ts : List (Term α (Node α))} (several : ts ≠ []) (steady : SteadySum (t :: ts))
    (written : ∀ u ∈ t :: ts, u.Written) (regular : t.Regular) (follows : ∀ u ∈ ts, u.Follows)
    (joins : Joins [] [t] ts) : Builds false .sum (Node.sum (t :: ts)).toText (.sum (t :: ts)) := by
  obtain ⟨first, later⟩ := List.forall_mem_cons.1 written
  obtain ⟨q, spelled, node⟩ := (Term.leads_plainest regular first).toBuilds
  have start : Chains t.toText [] [t] :=
    ⟨.ofDifference (.ofProduct q), spelled.congr rfl, rfl, t.plainest, node,
      Term.addends_of_wrap (regular.wrap_plainest regular.nonzero)
        (steady.plain t List.mem_cons_self)⟩
  obtain ⟨front, chain, ⟨p, whole, trails⟩, all, direct⟩ :=
    start.addends (by simp) later follows steady joins
  have all' : front ++ chain = t :: ts := all
  rw [← all'] at steady
  obtain ⟨n, built, terms⟩ := trails.node_eq steady direct
  rw [all'] at terms
  obtain rfl := eq_sum_of_addends terms (by simpa using several)
  rw [toText_sum]
  exact ⟨p, whole, built⟩

end SymbolicAlgebra
