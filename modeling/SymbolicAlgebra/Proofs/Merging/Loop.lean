/-
  Merging the terms of a sum
  ==========================
  Simplifying a sum takes its terms one after the other and adds each to the first one
  like it. Two like terms come to zero or to a term with the factors of the first
  (`Term.Joins`), so that no two like terms should be left. There are two exceptions:

    * zero is like every number. A zero that like terms have come to takes in the next
      number, although another number may stand behind it;
    * the multiples of a sum in brackets can add up to that sum itself, whose terms are
      spliced in when nothing is merged any more.

  `Node.Mergeable` excludes both by the terms that are to be merged: no two like terms
  stand one before and one behind a number if yet another number follows, and multiples
  of a sum in brackets do not add up to one.

  What has been merged and what remains obey an invariant (`Node.Merged`). One step keeps
  it (**`Node.Merged.step`**), hence the loop does (**`Node.Merged.run`**), and in the end
  the terms are unlike (**`Node.Merged.flattened_unlike`**).
-/
import Mathlib.Algebra.Field.Basic
import SymbolicAlgebra.Proofs.Steady.Sum

namespace SymbolicAlgebra

variable {α : Type} [FieldScalar α]

namespace Term

variable {s t u w : Term α (Node α)} {us vs : List (Term α (Node α))}

/-! ### What like terms add up to -/

/-- What a term contributes to the terms like a given one. -/
def share (s u : Term α (Node α)) : α := if s.isLike u then u.coefficient else 0

/-- What the terms like the given one add up to. -/
def likeTotal (s : Term α (Node α)) (us : List (Term α (Node α))) : α := (us.map s.share).sum

/-- No term like the given one is a fraction over zero. -/
def DefinedIn (s : Term α (Node α)) (us : List (Term α (Node α))) : Prop :=
  ∀ u ∈ us, s.isLike u = true → u.denominator ≠ 0

/-- The terms like the given one have a total, which is not one. -/
structure Uneven (s : Term α (Node α)) (us : List (Term α (Node α))) : Prop where
  defined : s.DefinedIn us
  total : s.likeTotal us ≠ 1

theorem share_of_like (like : s.isLike u = true) : s.share u = u.coefficient := if_pos like

theorem share_of_unlike (unlike : ¬ s.isLike u = true) : s.share u = 0 := if_neg unlike

theorem likeTotal_append : s.likeTotal (us ++ vs) = s.likeTotal us + s.likeTotal vs := by
  rw [likeTotal, List.map_append, List.sum_append]
  rfl

theorem likeTotal_cons : s.likeTotal (u :: us) = s.share u + s.likeTotal us := by
  rw [likeTotal, List.map_cons, List.sum_cons]
  rfl

theorem likeTotal_eq_zero (none : ∀ u ∈ us, ¬ s.isLike u = true) : s.likeTotal us = 0 := by
  apply List.sum_eq_zero
  rw [List.forall_mem_map]
  exact fun u hu => share_of_unlike (none u hu)

theorem SameParts.isLike_right (h : t.SameParts u) (s : Term α (Node α)) :
    s.isLike t = s.isLike u := by
  rw [isLike_eq, isLike_eq, h.factors, h.divisors]

theorem SameParts.uneven (h : t.SameParts u) (uneven : u.Uneven us) : t.Uneven us := by
  refine ⟨?_, ?_⟩
  · intro v hv like
    rw [h.isLike_left] at like
    exact uneven.defined v hv like
  · have same : t.share = u.share := by
      funext v
      rw [share, share, h.isLike_left]
    rw [likeTotal, same]
    exact uneven.total

theorem SameParts.bare (h : t.SameParts u) (bare : u.Bare) : t.Bare :=
  ⟨h.factors.trans bare.factors, h.divisors.trans bare.divisors⟩

/-- A term that is nothing but a sum in brackets has the coefficient one. -/
theorem coefficient_of_soleSum? {ts : List (Term α (Node α))} (sole : t.soleSum? = some ts) :
    t.coefficient = 1 := by
  obtain ⟨⟨above, below⟩, -⟩ := soleSum?_eq_some.1 sole
  rw [coefficient, eq_of_beq above, eq_of_beq below, FieldScalar.quotient_eq one_ne_zero, div_one]

/-! ### Two like terms -/

/-- What a term and one like it come to: zero, or a steady term with the factors of the first. The
coefficients are added. -/
structure Joins (u t w : Term α (Node α)) : Prop where
  done : w = zero ∨ (w.Steady ∧ w.SameParts u)
  added : u.isZero = false → u.denominator ≠ 0 → t.denominator ≠ 0 →
    w.denominator ≠ 0 ∧ w.coefficient = u.coefficient + t.coefficient

variable [ExactScalar α]

theorem zero_coefficient : (zero : Term α (Node α)).denominator ≠ 0 ∧
    (zero : Term α (Node α)).coefficient = 0 := by
  rw [zero_eq]
  exact ⟨one_ne_zero, (FieldScalar.quotient_eq one_ne_zero).trans (zero_div 1)⟩

omit [ExactScalar α] in
/-- A built term has the coefficient that it is built with. -/
theorem normal_coefficient {fs gs : List (Factor (Node α))} (steady : ∀ f ∈ fs ++ gs, f.Steady)
    (n : α) {d : α} (defined : d ≠ 0) : (normal n d fs gs).denominator ≠ 0 ∧
      (normal n d fs gs).coefficient = n / d := by
  rw [normal_steady steady, settled]
  split
  · have opposite : -d ≠ 0 := neg_ne_zero.2 defined
    exact ⟨opposite, (FieldScalar.quotient_eq opposite).trans (neg_div_neg_eq n d)⟩
  · exact ⟨defined, FieldScalar.quotient_eq defined⟩

/-- Bringing the coefficient to lowest terms keeps it, if no factor is certainly zero. -/
theorem lowest_coefficient (steady : ∀ f ∈ t.realFactors ++ t.realDivisors, f.Steady)
    (visible : t.realFactors.any Factor.isZero = false) (defined : t.denominator ≠ 0)
    (lowest : t.lowest = .ok w) : w.denominator ≠ 0 ∧ w.coefficient = t.coefficient := by
  rw [Term.lowest] at lowest
  split at lowest
  · rename_i vanishes
    cases lowest
    rw [isZero_eq, visible, Bool.or_false] at vanishes
    have nothing : t.numerator = 0 := eq_of_beq (Bool.and_eq_true_iff.1 vanishes).2
    refine ⟨zero_coefficient.1, zero_coefficient.2.trans ?_⟩
    rw [coefficient, nothing, FieldScalar.quotient_eq defined, zero_div]
  · obtain ⟨m, c, reduced, present, same⟩ := ExactScalar.reduceFraction_eq t.numerator defined
    rw [reduced] at lowest
    cases lowest
    obtain ⟨some, value⟩ := normal_coefficient steady m present
    exact ⟨some, by rw [value, same, coefficient, FieldScalar.quotient_eq defined]⟩

/-- Two like terms of which the first is composed join in one pass. -/
theorem Composed.combine_joins [SteadyScalar α] (h : u.Composed) (t : Term α (Node α)) :
    ∃ c w, u.combine t = .ok c ∧ (∀ level depth, c.pass level depth = .ok w) ∧ u.Joins t w := by
  obtain ⟨m, d, reduced⟩ := SteadyScalar.reduceFraction_exists
    (u.numerator * t.denominator + t.numerator * u.denominator) (u.denominator * t.denominator)
  have composed := composed_normal h.steady h.apart m d
  obtain ⟨factors, divisors⟩ := normal_real h.steady m d
  obtain ⟨w, lowest, result⟩ := composed.lowest_spec
  refine ⟨normal m d u.realFactors u.realDivisors, w, ?_, ?_, ?_, ?_⟩
  · rw [combine, reduced]
    rfl
  · intro level depth
    rw [composed.pass_eq, lowest]
  · rcases result with zero | ⟨steady, above, below⟩
    · exact .inl zero
    · exact .inr ⟨steady, above.trans factors, below.trans divisors⟩
  · intro nonzero defined defined'
    obtain ⟨m', d', reduced', present, quotient⟩ := ExactScalar.reduceFraction_eq
      (u.numerator * t.denominator + t.numerator * u.denominator) (mul_ne_zero defined defined')
    rw [reduced] at reduced'
    cases reduced'
    obtain ⟨some, value⟩ := normal_coefficient h.steady m present
    have visible : u.realFactors.any Factor.isZero = false := by
      rw [isZero_eq, Bool.and_eq_false_iff, Bool.or_eq_false_iff] at nonzero
      have real : (!(u.denominator == 0)) = true := by simpa using defined
      exact (nonzero.resolve_left (by simp [real])).2
    obtain ⟨defined'', same⟩ :=
      lowest_coefficient composed.steady (by rw [factors]; exact visible) some lowest
    refine ⟨defined'', ?_⟩
    rw [same, value, quotient, coefficient, coefficient, FieldScalar.quotient_eq defined,
      FieldScalar.quotient_eq defined', div_add_div _ _ defined defined',
      mul_comm u.denominator t.numerator]

end Term

namespace Node

variable {t u w : Term α (Node α)} {us ws rest all ks : List (Term α (Node α))}

/-! ### One step of the loop -/

/-- Merging a term into others appends it, if none is like it, or replaces the first one like it
by what the two come to. -/
inductive Merges (t : Term α (Node α)) : List (Term α (Node α)) → List (Term α (Node α)) → Prop
  | appended {us : List (Term α (Node α))} (fresh : ∀ u ∈ us, u.isLike t = false) :
      Merges t us (us ++ [t])
  | joined {before after : List (Term α (Node α))} {u w : Term α (Node α)}
      (fresh : ∀ v ∈ before, v.isLike t = false) (like : u.isLike t = true) (joins : u.Joins t w) :
      Merges t (before ++ u :: after) (before ++ w :: after)

theorem mergeOne_merges [ExactScalar α] [SteadyScalar α]
    (composed : ∀ u ∈ us, u.isLike t = true → u.Composed) :
    ∃ ws, (∀ level depth, mergeOne (Term.pass level depth) t us = .ok ws) ∧ Merges t us ws := by
  induction us with
  | nil => exact ⟨[t], fun _ _ => rfl, .appended (List.forall_mem_nil _)⟩
  | cons u us ih =>
    obtain ⟨first, later⟩ := List.forall_mem_cons.1 composed
    by_cases like : u.isLike t = true
    · obtain ⟨c, w, combined, simplified, joins⟩ := (first like).combine_joins t
      have merges : Merges t ([] ++ u :: us) ([] ++ w :: us) :=
        .joined (List.forall_mem_nil _) like joins
      refine ⟨w :: us, ?_, merges⟩
      intro level depth
      rw [mergeOne, if_pos like, combined]
      exact congrArg (· >>= fun w => pure (w :: us)) (simplified level depth)
    · have unlike : u.isLike t = false := by simpa using like
      obtain ⟨ws, merged, step⟩ := ih later
      refine ⟨u :: ws, ?_, ?_⟩
      · intro level depth
        rw [mergeOne, if_neg like, merged]
        rfl
      · cases step with
        | appended fresh => exact .appended (List.forall_mem_cons.2 ⟨unlike, fresh⟩)
        | @joined before after v w fresh found joins =>
          have merges : Merges t (u :: before ++ v :: after) (u :: before ++ w :: after) :=
            .joined (List.forall_mem_cons.2 ⟨unlike, fresh⟩) found joins
          exact merges

section Replaced

variable {β : Type} {before after : List β} {x y : β}

/-- What holds of all elements of a list holds when one of them is replaced. -/
theorem forall_replaced {P Q : β → Prop} (h : ∀ v ∈ before ++ x :: after, P v)
    (weaken : ∀ v, P v → Q v) (new : P x → Q y) : ∀ v ∈ before ++ y :: after, Q v := by
  obtain ⟨left, right⟩ := List.forall_mem_append.1 h
  obtain ⟨middle, right⟩ := List.forall_mem_cons.1 right
  refine List.forall_mem_append.2 ⟨?_, List.forall_mem_cons.2 ⟨new middle, ?_⟩⟩
  · exact fun v hv => weaken v (left v hv)
  · exact fun v hv => weaken v (right v hv)

/-- What holds between the elements of a list holds when one of them is replaced. -/
theorem pairwise_replaced {R S : β → β → Prop} (h : (before ++ x :: after).Pairwise R)
    (weaken : ∀ v z, R v z → S v z) (behind : ∀ z, R x z → S y z)
    (ahead : ∀ v ∈ before, R v x → S v y) : (before ++ y :: after).Pairwise S := by
  obtain ⟨left, right, across⟩ := List.pairwise_append.1 h
  obtain ⟨first, right⟩ := List.pairwise_cons.1 right
  refine List.pairwise_append.2 ⟨left.imp (weaken _ _), List.pairwise_cons.2 ⟨?_, ?_⟩, ?_⟩
  · exact fun z hz => behind z (first z hz)
  · exact right.imp (weaken _ _)
  · intro v hv
    refine List.forall_mem_cons.2 ⟨ahead v hv (across v hv x List.mem_cons_self), ?_⟩
    exact fun z hz => weaken v z (across v hv z (List.mem_cons_of_mem x hz))

end Replaced

/-! ### Numbers and zeros -/

/-- Where two numbers stand, no term between them is like one before them, numbers apart. -/
def Clear (us : List (Term α (Node α))) : Prop :=
  ∀ a t b u, [a, t, b, u].Sublist us → a.isLike b = true → t.Bare → u.Bare → a.Bare

/-- Terms merged so far, while the rest remains. Of two like ones the second is zero, or the first is
and nothing that remains is like it. This takes that the rest is clear behind each of the terms
(`ahead`), and that behind one that stands before a number no like term remains with another number
behind it (`between`). -/
structure Standing (us rest : List (Term α (Node α))) : Prop where
  apart : us.Pairwise fun u w => u.isLike w = true →
    w = Term.zero ∨ (u = Term.zero ∧ ∀ t ∈ rest, u.isLike t = false)
  ahead : ∀ u ∈ us, ∀ t b v, [t, b, v].Sublist rest → u.isLike b = true → t.Bare → v.Bare → u.Bare
  between : us.Pairwise fun u w => w.Bare → w ≠ Term.zero →
    ∀ b v, [b, v].Sublist rest → u.isLike b = true → v.Bare → u.Bare

theorem Standing.appended (h : Standing us (t :: rest)) (clear : Clear (t :: rest))
    (fresh : ∀ u ∈ us, u.isLike t = false) : Standing (us ++ [t]) rest where
  apart := by
    refine List.pairwise_append.2 ⟨?_, List.pairwise_singleton _ _, ?_⟩
    · exact h.apart.imp fun other like => (other like).imp_right fun ⟨zero, waits⟩ =>
        ⟨zero, (List.forall_mem_cons.1 waits).2⟩
    · intro u hu v hv like
      obtain rfl := List.mem_singleton.1 hv
      rw [fresh u hu] at like
      cases like
  ahead := by
    refine List.forall_mem_append.2 ⟨?_, List.forall_mem_singleton.2 ?_⟩
    · exact fun u hu s b v inside => h.ahead u hu s b v (inside.cons t)
    · exact fun s b v inside => clear t s b v (inside.cons_cons t)
  between := by
    refine List.pairwise_append.2 ⟨?_, List.pairwise_singleton _ _, ?_⟩
    · exact h.between.imp fun guarded bare nonzero b v inside =>
        guarded bare nonzero b v (inside.cons t)
    · intro u hu w hw bare _ b v inside like
      obtain rfl := List.mem_singleton.1 hw
      exact h.ahead u hu w b v (inside.cons_cons w) like bare

variable [ExactScalar α] {before after : List (Term α (Node α))}

theorem Standing.joined (h : Standing (before ++ u :: after) (t :: rest))
    (fresh : ∀ v ∈ before, v.isLike t = false) (like : u.isLike t = true)
    (parts : w = Term.zero ∨ w.SameParts u) : Standing (before ++ w :: after) rest where
  apart := by
    have some : ¬ (u = Term.zero ∧ ∀ s ∈ t :: rest, u.isLike s = false) := by
      rintro ⟨-, waits⟩
      rw [waits t List.mem_cons_self] at like
      cases like
    refine pairwise_replaced (h.apart.and h.between) ?_ ?_ ?_
    · exact fun v x ⟨other, _⟩ same => (other same).imp_right fun ⟨zero, waits⟩ =>
        ⟨zero, (List.forall_mem_cons.1 waits).2⟩
    · rintro x ⟨other, guarded⟩ same
      rcases parts with rfl | equal
      · by_cases nothing : x = Term.zero
        · exact .inl nothing
        -- a number stands behind the zero that the two have come to, so no other one remains
        have bare : x.Bare := Term.zero_bare.of_like same
        refine .inr ⟨rfl, fun y hy => ?_⟩
        by_contra found
        have number : y.Bare := Term.zero_bare.of_like (by simpa using found)
        have inside : [t, y].Sublist (t :: rest) := (List.singleton_sublist.2 hy).cons_cons t
        have alike : u.isLike x = true := (guarded bare nothing t y inside like number).isLike bare
        exact (other alike).elim nothing some
      · rw [equal.isLike_left] at same
        exact .inl ((other same).resolve_right some)
    · intro v hv _ same
      rcases parts with zero | equal
      · exact .inl zero
      · rw [equal.isLike_right] at same
        have found := Term.isLike_trans same like
        rw [fresh v hv] at found
        cases found
  ahead := by
    refine forall_replaced h.ahead (fun v old s b x inside => old s b x (inside.cons t)) ?_
    intro old s b x inside same number number'
    rcases parts with rfl | equal
    · exact Term.zero_bare
    · rw [equal.isLike_left] at same
      exact equal.bare (old s b x (inside.cons t) same number number')
  between := by
    refine pairwise_replaced h.between ?_ ?_ ?_
    · exact fun v x guarded bare nonzero b y inside => guarded bare nonzero b y (inside.cons t)
    · intro x guarded bare nonzero b y inside same number
      rcases parts with rfl | equal
      · exact Term.zero_bare
      · rw [equal.isLike_left] at same
        exact equal.bare (guarded bare nonzero b y (inside.cons t) same number)
    · intro v hv _ bare nonzero b y inside same number
      have equal := parts.resolve_left nonzero
      have bare' : u.Bare :=
        ⟨equal.factors.symm.trans bare.factors, equal.divisors.symm.trans bare.divisors⟩
      exact h.ahead v (List.mem_append_left _ hv) t b y (inside.cons_cons t) same
        (bare'.of_like like) number

omit [ExactScalar α] in
/-- In the end, of two like terms one is zero. -/
theorem Standing.unlike (h : Standing ks []) :
    ks.Pairwise fun u w => u.isLike w = true → u = Term.zero ∨ w = Term.zero :=
  h.apart.imp fun other like => (other like).symm.imp_left And.left

/-! ### Terms that can be merged -/

omit [ExactScalar α]

/-- What remains of the terms of a sum can be merged: none is nothing but a sum in brackets; like ones
are numbers, or more than multiples of such a sum, or multiples that do not add up to it; and numbers
stand clear. -/
structure Remaining (all us : List (Term α (Node α))) : Prop where
  plain : ∀ u ∈ us, u.soleSum? = none
  whole : us.Pairwise fun t u => t.isLike u = true → t.isSolid = true ∨ t.Bare ∨ t.Uneven all
  clear : Clear us

/-- The terms of a sum, as they are simplified, can be merged. -/
def Mergeable (us : List (Term α (Node α))) : Prop := Remaining us us

/-- Another pass would leave a term alone that is like one behind it. -/
def Settled (us : List (Term α (Node α))) : Prop :=
  us.Pairwise fun t u => t.isLike u = true → t = Term.zero ∨ t.Steady

theorem Settled.of_done (done : ∀ u ∈ us, u = Term.zero ∨ u.Steady) : Settled us :=
  List.pairwise_of_forall_mem_list fun t ht _ _ _ => done t ht

/-- Terms that are more than multiples of a sum in brackets, and numbers behind them, can be merged. -/
theorem Mergeable.of_last {vs ws : List (Term α (Node α))} (solid : ∀ v ∈ vs, v.isSolid = true)
    (bare : ∀ w ∈ ws, w.Bare) : Mergeable (vs ++ ws) where
  plain := List.forall_mem_append.2
    ⟨fun v hv => Term.soleSum?_of_solid (solid v hv), fun w hw => (bare w hw).soleSum?_eq⟩
  whole := by
    have fits : ∀ t ∈ vs ++ ws, t.isSolid = true ∨ t.Bare ∨ t.Uneven (vs ++ ws) :=
      List.forall_mem_append.2 ⟨fun v hv => .inl (solid v hv), fun w hw => .inr (.inl (bare w hw))⟩
    exact List.pairwise_of_forall_mem_list fun t ht _ _ _ => fits t ht
  clear := by
    intro a t b u inside like number _
    obtain ⟨front, back, split, above, below⟩ := List.sublist_append_iff.1 inside
    -- the number in the second place is none of the first terms, so that the third is a number
    have last : b ∈ back := by
      rcases front with _ | ⟨c, _ | ⟨d, front⟩⟩
      · obtain rfl : [a, t, b, u] = back := split
        simp
      · obtain rfl : [t, b, u] = back := (List.cons.inj split).2
        simp
      · obtain ⟨rfl, rest⟩ := List.cons.inj split
        obtain ⟨rfl, -⟩ := List.cons.inj rest
        have more := solid t (above.subset (List.mem_cons_of_mem a List.mem_cons_self))
        rw [number.not_solid] at more
        cases more
    exact (bare b (below.subset last)).of_like (Term.isLike_symm like)

theorem Remaining.later (h : Remaining all (t :: us)) : Remaining all us where
  plain := (List.forall_mem_cons.1 h.plain).2
  whole := (List.pairwise_cons.1 h.whole).2
  clear a s b u inside := h.clear a s b u (inside.cons t)

/-! ### The invariant -/

/-- Terms merged so far, of all the terms of a sum, while the rest remains. -/
structure Merged (all us rest : List (Term α (Node α))) : Prop extends Standing us rest where
  settled : ∀ u ∈ us, ∀ t ∈ rest, u.isLike t = true → u = Term.zero ∨ u.Steady
  plain : ∀ u ∈ us, u.soleSum? = none ∨ u.Uneven all
  whole : ∀ u ∈ us, ∀ t ∈ rest, u.isLike t = true → u.isSolid = true ∨ u.Bare ∨ u.Uneven all
  total : ∀ s : Term α (Node α), ¬ s.Bare → s.DefinedIn all →
    s.DefinedIn (us ++ rest) ∧ s.likeTotal (us ++ rest) = s.likeTotal all

theorem Merged.start (all : List (Term α (Node α))) : Merged all [] all where
  apart := .nil
  ahead := nofun
  between := .nil
  settled := nofun
  plain := nofun
  whole := nofun
  total _ _ defined := ⟨defined, rfl⟩

theorem Merged.appended (h : Merged all us (t :: rest)) (remaining : Remaining all (t :: rest))
    (settled : Settled (t :: rest)) (fresh : ∀ u ∈ us, u.isLike t = false) :
    Merged all (us ++ [t]) rest where
  toStanding := h.toStanding.appended remaining.clear fresh
  settled := by
    refine List.forall_mem_append.2 ⟨?_, List.forall_mem_singleton.2 (List.pairwise_cons.1 settled).1⟩
    exact fun u hu s hs => h.settled u hu s (List.mem_cons_of_mem t hs)
  plain := by
    refine List.forall_mem_append.2 ⟨h.plain, List.forall_mem_singleton.2 ?_⟩
    exact .inl (remaining.plain t List.mem_cons_self)
  whole := by
    refine List.forall_mem_append.2 ⟨?_, List.forall_mem_singleton.2 ?_⟩
    · exact fun u hu s hs => h.whole u hu s (List.mem_cons_of_mem t hs)
    · exact (List.pairwise_cons.1 remaining.whole).1
  total := by
    rw [List.append_assoc]
    exact h.total

variable [ExactScalar α]

/-- Merging keeps what like terms other than numbers add up to. -/
theorem share_joined (joins : u.Joins t w) (like : u.isLike t = true)
    (settled : u = Term.zero ∨ u.Steady) {s : Term α (Node α)} (some : ¬ s.Bare)
    (defined : s.isLike u = true → u.denominator ≠ 0)
    (defined' : s.isLike t = true → t.denominator ≠ 0) :
    (s.isLike w = true → w.denominator ≠ 0) ∧ s.share w = s.share u + s.share t := by
  have proper : ∀ {v : Term α (Node α)}, s.isLike v = true → v ≠ Term.zero := by
    rintro v same rfl
    exact some (Term.zero_bare.of_like (Term.isLike_symm same))
  have parts : s.isLike w = true → s.isLike u = true := by
    intro same
    have steady := joins.done.resolve_left (proper same)
    rwa [steady.2.isLike_right] at same
  by_cases found : s.isLike u = true
  · have found' := Term.isLike_trans found like
    have nonzero := (settled.resolve_left (proper found)).nonzero
    obtain ⟨present, added⟩ := joins.added nonzero (defined found) (defined' found')
    refine ⟨fun _ => present, ?_⟩
    rw [Term.share_of_like found, Term.share_of_like found', ← added]
    rcases joins.done with rfl | ⟨-, same⟩
    · rw [Term.share_of_unlike fun same => proper same rfl, Term.zero_coefficient.2]
    · rw [Term.share_of_like (by rw [same.isLike_right, found])]
  · have unlike : ¬ s.isLike t = true :=
      fun same => found (Term.isLike_trans same (Term.isLike_symm like))
    refine ⟨fun same => absurd (parts same) found, ?_⟩
    rw [Term.share_of_unlike found, Term.share_of_unlike unlike,
      Term.share_of_unlike fun same => found (parts same), add_zero]

theorem Merged.joined (h : Merged all (before ++ u :: after) (t :: rest))
    (fresh : ∀ v ∈ before, v.isLike t = false) (like : u.isLike t = true) (joins : u.Joins t w) :
    Merged all (before ++ w :: after) rest := by
  have member : u ∈ before ++ u :: after := List.mem_append_right _ List.mem_cons_self
  have whole := h.whole u member t List.mem_cons_self like
  have parts : w = Term.zero ∨ w.SameParts u := joins.done.imp_right And.right
  refine ⟨h.toStanding.joined fresh like parts, ?settled, ?plain, ?whole, ?total⟩
  case settled =>
    refine forall_replaced h.settled (fun v old s hs => old s (List.mem_cons_of_mem t hs)) ?_
    exact fun _ _ _ _ => joins.done.imp_right And.left
  case plain =>
    refine forall_replaced h.plain (fun v old => old) fun _ => ?_
    rcases parts with rfl | same
    · exact .inl Term.zero_bare.soleSum?_eq
    · rcases whole with solid | bare | uneven
      · exact .inl (Term.soleSum?_of_solid (by rw [same.isSolid_eq, solid]))
      · exact .inl (same.bare bare).soleSum?_eq
      · exact .inr (same.uneven uneven)
  case whole =>
    refine forall_replaced h.whole (fun v old s hs => old s (List.mem_cons_of_mem t hs)) ?_
    intro _ s _ _
    rcases parts with rfl | same
    · exact .inr (.inl Term.zero_bare)
    · exact whole.imp (fun solid => by rw [same.isSolid_eq, solid]) (.imp same.bare same.uneven)
  case total =>
    intro s proper defined
    obtain ⟨present, total⟩ := h.total s proper defined
    obtain ⟨old, waiting⟩ := List.forall_mem_append.1 present
    obtain ⟨next, waiting⟩ := List.forall_mem_cons.1 waiting
    obtain ⟨some, added⟩ := share_joined joins like (h.settled u member t List.mem_cons_self like)
      proper (old u member) next
    refine ⟨List.forall_mem_append.2 ⟨forall_replaced old (fun v => id) fun _ => some, waiting⟩, ?_⟩
    rw [← total]
    simp only [Term.likeTotal_append, Term.likeTotal_cons, added]
    ring

/-- One more term is merged. -/
theorem Merged.step (h : Merged all us (t :: rest)) (remaining : Remaining all (t :: rest))
    (settled : Settled (t :: rest)) (merges : Merges t us ws) : Merged all ws rest := by
  cases merges with
  | appended fresh => exact h.appended remaining settled fresh
  | joined fresh like joins => exact h.joined fresh like joins

omit [ExactScalar α] in
/-- What is merged was there before, or it is zero, or steady. -/
theorem Merges.origin (merges : Merges t us ws) :
    ∀ w ∈ ws, w ∈ us ++ [t] ∨ w = Term.zero ∨ w.Steady := by
  cases merges with
  | appended _ => exact fun w hw => .inl hw
  | joined _ _ joins =>
    refine forall_replaced (fun v hv => .inl (List.mem_append_left _ hv)) (fun v old => old) ?_
    exact fun _ => .inr (joins.done.imp_right And.left)

variable [SteadyScalar α]

/-- All that remains is merged. -/
theorem Merged.run (h : Merged all us rest) (remaining : Remaining all rest)
    (settled : Settled rest) :
    ∃ ks, (∀ level depth, rest.foldlM (fun merged t => mergeOne (Term.pass level depth) t merged) us =
      .ok ks) ∧ Merged all ks [] ∧ ∀ k ∈ ks, k ∈ us ++ rest ∨ k = Term.zero ∨ k.Steady := by
  induction rest generalizing us with
  | nil => exact ⟨us, fun _ _ => rfl, h, fun k hk => .inl (List.mem_append_left _ hk)⟩
  | cons t rest ih =>
    have composed : ∀ u ∈ us, u.isLike t = true → u.Composed := by
      intro u hu like
      rcases h.settled u hu t List.mem_cons_self like with rfl | steady
      · exact Term.zero_composed
      · exact steady.toComposed
    obtain ⟨ws, merged, merges⟩ := mergeOne_merges composed
    obtain ⟨ks, others, done, origin⟩ :=
      ih (h.step remaining settled merges) remaining.later (List.pairwise_cons.1 settled).2
    refine ⟨ks, ?_, done, ?_⟩
    · intro level depth
      rw [List.foldlM_cons, merged]
      exact others level depth
    · intro k hk
      rcases origin k hk with member | finished
      · rcases List.mem_append.1 member with member | member
        · refine (merges.origin k member).imp_left fun found => ?_
          rw [List.append_cons]
          exact List.mem_append_left rest found
        · exact .inl (List.mem_append_right us (List.mem_cons_of_mem t member))
      · exact .inr finished

/-! ### Merged sums -/

omit [SteadyScalar α] in
/-- When nothing remains, no term is nothing but a sum in brackets. -/
theorem Merged.soleSum?_eq (h : Merged all ks []) : ∀ k ∈ ks, k.soleSum? = none := by
  intro k hk
  by_cases bare : k.Bare
  · exact bare.soleSum?_eq
  rcases h.plain k hk with plain | uneven
  · exact plain
  by_contra sole
  obtain ⟨us, sole⟩ := Option.ne_none_iff_exists'.1 sole
  obtain ⟨-, total⟩ := h.total k bare uneven.defined
  -- no other term is like it, so that its coefficient is the total
  obtain ⟨before, after, rfl⟩ := List.append_of_mem hk
  obtain ⟨-, behind, across⟩ := List.pairwise_append.1 h.unlike
  have alone : ∀ v ∈ before ++ after, ¬ k.isLike v = true := by
    have proper : ∀ {v : Term α (Node α)}, k.isLike v = true → ¬ (k = Term.zero ∨ v = Term.zero) := by
      rintro v like (rfl | rfl)
      · exact bare Term.zero_bare
      · exact bare (Term.zero_bare.of_like (Term.isLike_symm like))
    refine List.forall_mem_append.2 ⟨?_, ?_⟩
    · intro v hv like
      exact proper like (across v hv k List.mem_cons_self (Term.isLike_symm like)).symm
    · intro v hv like
      exact proper like ((List.pairwise_cons.1 behind).1 v hv like)
  obtain ⟨front, back⟩ := List.forall_mem_append.1 alone
  have own : k.isLike k = true := Term.isLike_equivalence.refl k trivial
  apply uneven.total
  rw [← total, List.append_nil, Term.likeTotal_append, Term.likeTotal_cons,
    Term.likeTotal_eq_zero front, Term.likeTotal_eq_zero back, Term.share_of_like own,
    Term.coefficient_of_soleSum? sole, zero_add, add_zero]

omit [SteadyScalar α] in
/-- The sum of merged terms holds those that are not zero, or it is zero. -/
theorem Merged.flattened_cases (h : Merged all ks []) :
    flattenedTerms ks = [Term.zero] ∨
      (flattenedTerms ks).Perm (ks.filter fun t => !t.isZero) ∧ flattenedTerms ks ≠ [] := by
  have contributions := flattened_perm (ks.map Node.product)
  rw [contributed, flatMap_summands h.soleSum?_eq] at contributions
  split at contributions
  · exact .inl (List.perm_singleton.1 contributions)
  · exact .inr ⟨contributions, flattened_ne_nil _⟩

omit [SteadyScalar α] in
/-- No two terms of the sum of merged terms are like each other. -/
theorem Merged.flattened_unlike (h : Merged all ks []) :
    (flattenedTerms ks).Pairwise fun t u => t.isLike u = false := by
  rcases h.flattened_cases with zero | ⟨order, -⟩
  · rw [zero]
    exact List.pairwise_singleton _ _
  · have symm : ∀ {t u : Term α (Node α)}, t.isLike u = false → u.isLike t = false := by
      intro t u unlike
      rw [← Bool.not_eq_true] at unlike ⊢
      exact fun like => unlike (Term.isLike_symm like)
    refine (order.pairwise_iff symm).2 ((h.unlike.filter _).imp_of_mem fun {t u} ht hu either => ?_)
    have present := (List.mem_filter.1 ht).2
    have present' := (List.mem_filter.1 hu).2
    rw [← Bool.not_eq_true]
    intro like
    rcases either like with rfl | rfl
    · rw [Term.zero_isZero] at present
      cases present
    · rw [Term.zero_isZero] at present'
      cases present'

/-- The sum of merged terms that are zero or steady is zero or steady. -/
theorem Merged.flattened_steady (h : Merged all ks []) (done : ∀ k ∈ ks, k = Term.zero ∨ k.Steady) :
    flattenedTerms ks = [Term.zero] ∨ SteadySum (flattenedTerms ks) := by
  refine h.flattened_cases.imp_right fun ⟨order, present⟩ => ?_
  have members : ∀ t ∈ flattenedTerms ks, t ∈ ks ∧ t.isZero = false := by
    intro t ht
    simpa using List.mem_filter.1 (order.mem_iff.1 ht)
  refine ⟨present, ?_, fun t ht => h.soleSum?_eq t (members t ht).1, h.flattened_unlike, ?_⟩
  · intro t ht
    obtain ⟨member, nonzero⟩ := members t ht
    refine (done t member).resolve_left ?_
    rintro rfl
    rw [Term.zero_isZero] at nonzero
    cases nonzero
  · apply StableSort.sorted_pairwise (P := fun _ => True)
    · exact fun t u _ _ => SteadyScalar.lt_asymm _ _
    · exact fun t u w _ _ _ => SteadyScalar.lt_weak _ _ _
    · exact fun _ _ => trivial

/-! ### One pass over a sum -/

omit [ExactScalar α] [SteadyScalar α] in
/-- It does not matter whether the terms are simplified before the loop or in it. -/
theorem merge_simplified {simplify : Term α (Node α) → Checked (Term α (Node α))}
    {ts : List (Term α (Node α))} (simplified : List.Forall₂ (fun t u => simplify t = .ok u) ts us)
    (start : List (Term α (Node α))) :
    ts.foldlM (fun merged t => do mergeOne simplify (← simplify t) merged) start =
      us.foldlM (fun merged u => mergeOne simplify u merged) start := by
  induction simplified generalizing start with
  | nil => rfl
  | cons first _ ih =>
    rw [List.foldlM_cons, List.foldlM_cons, first]
    exact congrArg _ (funext ih)

/-- One pass over a sum merges its terms, as they are simplified. -/
theorem Mergeable.simplifySum_eq (mergeable : Mergeable us) (settled : Settled us) :
    ∃ ks, Merged us ks [] ∧ (∀ k ∈ ks, k ∈ us ∨ k = Term.zero ∨ k.Steady) ∧
      ∀ level depth (ts : List (Term α (Node α))),
        List.Forall₂ (fun t u => t.pass level depth = .ok u) ts us →
          simplifySum (Term.pass level depth) ts = .ok (flattenedTerms ks) := by
  obtain ⟨ks, merged, done, origin⟩ := (Merged.start us).run mergeable settled
  refine ⟨ks, done, origin, ?_⟩
  intro level depth ts simplified
  rw [simplifySum, merge_simplified simplified, merged]
  rfl

end Node

end SymbolicAlgebra
