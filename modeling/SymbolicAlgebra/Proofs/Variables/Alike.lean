/-
  Equal expressions mean the same
  ===============================
  Two expressions are alike when they report the same variables and evaluate to one
  number in every scope that binds these. Equality of expressions is unordered at two
  levels, passes over the factors that are certainly one, and does not look at the sign
  of a variable; **`Node.same_alike`** says that it holds of alike expressions only, two
  bare variables of different signs aside. Hence what simplifying and adding take for
  equal is alike: the bases whose exponents are added, the like terms whose
  coefficients are added, and the factors that a tally counts together.

  The numbers are read exactly, so that sums and products do not depend on their order
  (`OrderFree`). A matching of two lists then gives one list of results up to order.
-/
import SymbolicAlgebra.Proofs.Variables.Evaluation
import SymbolicAlgebra.Proofs.Algebra.Likeness

namespace SymbolicAlgebra

/-- Numbers whose sums and products do not depend on the order. Equal numbers are one number; an
undefined number can be among them. -/
class OrderFree (α : Type) [Scalar α] : Prop where
  eq_of_beq : ∀ {x y : α}, (x == y) = true → x = y
  zero_add : ∀ x : α, 0 + x = x
  add_right_comm : ∀ x y z : α, x + y + z = x + z + y
  mul_right_comm : ∀ x y z : α, x * y * z = x * z * y

instance {α : Type} [FieldScalar α] : OrderFree α where
  eq_of_beq := LawfulBEq.eq_of_beq
  zero_add := zero_add
  add_right_comm := add_right_comm
  mul_right_comm := mul_right_comm

/-- Matching lists give the same results, in another order. -/
theorem Tally.perm_of_matched {β γ : Type} {same : β → β → Bool} {h : β → γ} {xs ys : List β}
    (each : ∀ x ∈ xs, ∀ y, same x y = true → h x = h y) (pass : matched same xs ys = true) :
    (xs.map h).Perm (ys.map h) := by
  induction xs generalizing ys with
  | nil =>
    rw [matched, List.isEmpty_iff] at pass
    rw [pass]
  | cons x xs ih =>
    obtain ⟨first, later⟩ := List.forall_mem_cons.1 each
    rw [matched] at pass
    split at pass
    · rename_i rest found
      obtain ⟨y, equal, order⟩ := perm_of_takeOut? found
      refine List.Perm.trans ?_ (order.map h).symm
      rw [List.map_cons, List.map_cons, first y equal]
      exact (ih later pass).cons (h y)
    · cases pass

/-- A tally counts another occurrence with an equal element, or lists it anew. -/
theorem Tally.insert_cases {β : Type} (same : β → β → Bool) (x : β) (t : Tally β) :
    insert same x t = t ++ [(x, 1)] ∨ ∃ before y k after, same y x = true ∧
      t = before ++ (y, k) :: after ∧ insert same x t = before ++ (y, k + 1) :: after := by
  induction t with
  | nil => exact .inl rfl
  | cons entry t ih =>
    rw [insert]
    split
    · rename_i equal
      exact .inr ⟨[], entry.1, entry.2, t, equal, rfl, rfl⟩
    · rcases ih with fresh | ⟨before, y, k, after, equal, listed, counted⟩
      · exact .inl (by rw [fresh, List.cons_append])
      · exact .inr ⟨entry :: before, y, k, after, equal, by rw [listed, List.cons_append],
          by rw [counted, List.cons_append]⟩

/-- What a tally has counted it has listed with an equal element. -/
theorem Tally.count_cases {β : Type} (same : β → β → Bool) (x : β) (t : Tally β) :
    count same x t = 0 ∨ ∃ y, same y x = true ∧ (y, count same x t) ∈ t := by
  induction t with
  | nil => exact .inl rfl
  | cons entry t ih =>
    rw [count_cons]
    split
    · rename_i equal
      exact .inr ⟨entry.1, equal, List.mem_cons_self⟩
    · rcases ih with none | ⟨y, equal, member⟩
      · exact .inl none
      · exact .inr ⟨y, equal, List.mem_cons_of_mem entry member⟩

variable {α : Type} [Scalar α]

namespace Node

/-! ### Folding numbers -/

omit [Scalar α] in
/-- An operation on nodes that computes with plain numbers gives one result for any order of
them. -/
theorem foldlM_perm {op : Node α → Node α → Checked (Node α)} {f : α → α → α}
    (numbers : ∀ x y, op (.number x) (.number y) = .ok (.number (f x y)))
    (commutes : ∀ x y z, f (f x y) z = f (f x z) y) {es es' : List (Checked (Node α))}
    (order : es.Perm es') (numeric : ∀ e ∈ es, ∃ x, e = .ok (.number x)) (start : α) :
    es.foldlM (fun m e => do op m (← e)) (.number start) =
      es'.foldlM (fun m e => do op m (← e)) (.number start) := by
  have step : ∀ (x start : α) (rest : List (Checked (Node α))),
      (.ok (.number x) :: rest).foldlM (fun m e => do op m (← e)) (.number start) =
        rest.foldlM (fun m e => do op m (← e)) (.number (f start x)) := by
    intro x start rest
    rw [List.foldlM_cons]
    show (op (.number start) (.number x) >>= _) = _
    rw [numbers]
    rfl
  induction order generalizing start with
  | nil => rfl
  | cons e order ih =>
    obtain ⟨⟨x, rfl⟩, later⟩ := List.forall_mem_cons.1 numeric
    rw [step, step]
    exact ih later (f start x)
  | swap e e' es =>
    obtain ⟨⟨x, rfl⟩, later⟩ := List.forall_mem_cons.1 numeric
    obtain ⟨⟨y, rfl⟩, -⟩ := List.forall_mem_cons.1 later
    rw [step, step, step, step, commutes]
  | trans first second ih ih' =>
    rw [ih numeric, ih' fun e he => numeric e (first.mem_iff.2 he)]

variable [OrderFree α] {s : Scope α}

theorem ofValue_exact (x : α) : ofValue x = .number x := by
  rw [ofValue, Scalar.unsignedZero]
  split
  · rename_i zero
    rw [OrderFree.eq_of_beq zero]
  · rfl

theorem multiply_numbers (x y : α) :
    (Node.number x).multiply (.number y) = .ok (.number (x * y)) := by
  rw [← ofValue_exact (x * y)]
  rfl

theorem add_numbers (x y : α) : (Node.number x).add (.number y) = .ok (.number (x + y)) := by
  rw [← ofValue_exact (x + y)]
  rfl

/-- Factors with the same results in another order make the same product. -/
theorem evaluateProduct_perm {fs gs : List (Factor (Node α))}
    (order : ((realFactors fs).map fun f => (Node.power f).evaluate (some s)).Perm
      ((realFactors gs).map fun f => (Node.power f).evaluate (some s)))
    (numeric : ∀ f ∈ realFactors fs, ∃ x, (Node.power f).evaluate (some s) = .ok (.number x))
    (start : α) :
    evaluateProduct (some s) (ofValue start) fs = evaluateProduct (some s) (ofValue start) gs := by
  have folds := foldlM_perm multiply_numbers OrderFree.mul_right_comm order
    (List.forall_mem_map.2 numeric) start
  rw [List.foldlM_map, List.foldlM_map] at folds
  rw [evaluateProduct_foldlM, evaluateProduct_foldlM, ofValue_exact, folds]

/-- A sum starts from zero. -/
theorem evaluate_sum {ts : List (Term α (Node α))}
    (numeric : ∀ t ∈ ts, ∃ x, (Node.product t).evaluate (some s) = .ok (.number x)) :
    (Node.sum ts).evaluate (some s) =
      (ts.map fun t => (Node.product t).evaluate (some s)).foldlM (fun m e => do m.add (← e))
        (.number 0) := by
  cases ts with
  | nil =>
    rw [evaluate]
    rfl
  | cons t ts =>
    obtain ⟨⟨x, first⟩, -⟩ := List.forall_mem_cons.1 numeric
    have start : (do (Node.number (0 : α)).add (← (Node.product t).evaluate (some s))) =
        .ok (.number x) := by
      rw [first]
      show (Node.number (0 : α)).add (.number x) = _
      rw [add_numbers, OrderFree.zero_add]
    rw [evaluate_sum_cons, first, List.map_cons, List.foldlM_cons, start]
    show evaluateSum (some s) (.number x) ts = List.foldlM _ (Node.number x) (ts.map _)
    rw [List.foldlM_map, evaluateSum_foldlM]

/-! ### Alike expressions -/

omit [OrderFree α]

/-- Expressions report the same variables and evaluate to one number wherever these are bound. -/
structure Alike (a b : Node α) : Prop where
  reports : ∀ name, name ∈ a.«variables» ↔ name ∈ b.«variables»
  evaluates : ∀ s : Scope α, s.collapseConstants = true →
    (∀ name ∈ a.«variables», ∃ x, s.get name = .ok (some x)) →
      ∃ x, a.evaluate (some s) = .ok (.number x) ∧ b.evaluate (some s) = .ok (.number x)

/-- Every variable of the expression has a value. -/
abbrev Bound (s : Scope α) (n : Node α) : Prop := n.Over fun name => ∃ x, s.get name = .ok (some x)

/-- The real factors of both lists are alike, in some order: whatever alike factors agree on, the
lists agree on. -/
def Matches (fs gs : List (Factor (Node α))) : Prop :=
  ∀ (γ : Type) (h : Factor (Node α) → γ),
    (∀ f ∈ realFactors fs, ∀ g, (Node.power f).Alike (.power g) → h f = h g) →
      ((realFactors fs).map h).Perm ((realFactors gs).map h)

theorem Matches.of_same {fs gs : List (Factor (Node α))}
    (each : ∀ f ∈ fs, ∀ g, f.same g = true → (Node.power f).Alike (.power g))
    (same : sameFactors fs (realFactors gs) = true) : Matches fs gs := by
  intro γ h agree
  rw [sameFactors_eq] at same
  refine Tally.perm_of_matched (fun f hf g equal => ?_) same
  exact agree f hf g (each f (List.mem_filter.1 hf).1 g equal)

theorem Matches.mem_variables {fs gs : List (Factor (Node α))} (h : Matches fs gs)
    (name : String) : name ∈ factorVariables fs ↔ name ∈ factorVariables gs := by
  have order := h Prop (fun f => name ∈ (Node.power f).«variables») fun f _ g alike =>
    propext (alike.reports name)
  have held : ∀ fs : List (Factor (Node α)), name ∈ factorVariables fs ↔
      True ∈ (realFactors fs).map fun f => name ∈ (Node.power f).«variables» := by
    intro fs
    simp [mem_factorVariables]
  rw [held, held, order.mem_iff]

namespace Alike

variable {a b a' b' : Node α}

/-- Numbers are there anyway, so it is enough that the results are equal. -/
theorem of_eq (reports : ∀ name, name ∈ a.«variables» ↔ name ∈ b.«variables»)
    (same : ∀ s : Scope α, s.collapseConstants = true → a.Bound s →
      a.evaluate (some s) = b.evaluate (some s)) : a.Alike b where
  reports := reports
  evaluates s collapsed bound := by
    obtain ⟨x, value⟩ := evaluate_numeric collapsed bound
    exact ⟨x, value, same s collapsed bound ▸ value⟩

theorem refl (a : Node α) : a.Alike a := of_eq (fun _ => Iff.rfl) fun _ _ _ => rfl

theorem same_result (h : a.Alike b) (collapsed : s.collapseConstants = true) (bound : a.Bound s) :
    a.evaluate (some s) = b.evaluate (some s) := by
  obtain ⟨x, left, right⟩ := h.evaluates s collapsed bound
  rw [left, right]

theorem power {f g : Factor (Node α)} (base : f.base.Alike g.base)
    (exponent : f.exponent.Alike g.exponent) : (Node.power f).Alike (.power g) := by
  refine of_eq (fun name => ?_) fun s collapsed bound => ?_
  · simp only [«variables», List.mem_append, base.reports name, exponent.reports name]
  · obtain ⟨left, right⟩ := Factor.over_iff.1 bound
    rw [evaluate_power, evaluate_power, base.same_result collapsed left,
      exponent.same_result collapsed right]

theorem unary (f : Unary) (argument : a.Alike b) : (Node.unary f a).Alike (.unary f b) := by
  refine of_eq (fun name => ?_) fun s collapsed bound => ?_
  · simp only [«variables», argument.reports name]
  · rw [evaluate, evaluate, argument.same_result collapsed (over_unary.1 bound)]

theorem binary (f : Binary) (left : a.Alike b) (right : a'.Alike b') :
    (Node.binary f a a').Alike (.binary f b b') := by
  refine of_eq (fun name => ?_) fun s collapsed bound => ?_
  · simp only [«variables», List.mem_append, left.reports name, right.reports name]
  · obtain ⟨first, second⟩ := over_binary.1 bound
    rw [evaluate, evaluate, left.same_result collapsed first, right.same_result collapsed second]

variable [OrderFree α]

theorem product (n d : α) {fs fs' gs gs' : List (Factor (Node α))} (above : Matches fs fs')
    (below : Matches gs gs') :
    (Node.product ⟨n, d, fs, gs⟩).Alike (.product ⟨n, d, fs', gs'⟩) := by
  refine of_eq (fun name => ?_) fun s collapsed bound => ?_
  · simp only [«variables», List.mem_append, above.mem_variables name, below.mem_variables name]
  · obtain ⟨upper, lower⟩ := Term.over_iff.1 bound
    have side : ∀ {ks ks' : List (Factor (Node α))}, Matches ks ks' →
        (∀ k ∈ realFactors ks, (Node.power k).Bound s) → ∀ start : α,
        evaluateProduct (some s) (ofValue start) ks =
          evaluateProduct (some s) (ofValue start) ks' := by
      intro ks ks' pairs bound start
      refine evaluateProduct_perm (pairs _ _ fun k hk k' alike => ?_) (fun k hk => ?_) start
      · exact alike.same_result collapsed (bound k hk)
      · exact evaluate_numeric collapsed (bound k hk)
    rw [evaluate, evaluate, side above upper n, side below lower d]

theorem sum {ts us : List (Term α (Node α))}
    (each : ∀ t ∈ ts, ∀ u, t.same u = true → (Node.product t).Alike (.product u))
    (same : sameTerms ts us = true) : (Node.sum ts).Alike (.sum us) := by
  rw [sameTerms_eq] at same
  have names : ∀ name, name ∈ (Node.sum ts).«variables» ↔ name ∈ (Node.sum us).«variables» := by
    intro name
    have order := Tally.perm_of_matched (h := fun t => name ∈ (Node.product t).«variables»)
      (fun t ht u equal => propext ((each t ht u equal).reports name)) same
    have held : ∀ ts : List (Term α (Node α)), name ∈ (Node.sum ts).«variables» ↔
        True ∈ ts.map fun t => name ∈ (Node.product t).«variables» := by
      intro ts
      rw [«variables», mem_termVariables]
      simp
    rw [held, held, order.mem_iff]
  refine of_eq names fun s collapsed bound => ?_
  have bound' : (Node.sum us).Bound s := fun name reported => bound name ((names name).2 reported)
  have numeric : ∀ ts : List (Term α (Node α)), (Node.sum ts).Bound s → ∀ t ∈ ts,
      ∃ x, (Node.product t).evaluate (some s) = .ok (.number x) :=
    fun ts bound t ht => evaluate_numeric collapsed (over_sum.1 bound t ht)
  have order := Tally.perm_of_matched (h := fun t => (Node.product t).evaluate (some s))
    (fun t ht u equal => (each t ht u equal).same_result collapsed (over_sum.1 bound t ht)) same
  rw [evaluate_sum (numeric ts bound), evaluate_sum (numeric us bound')]
  exact foldlM_perm add_numbers OrderFree.add_right_comm order
    (List.forall_mem_map.2 (numeric ts bound)) 0

end Alike

/-- The sign that a comparison of variables leaves out is compared apart inside other nodes. -/
theorem same_sign {a b : Node α} (signs : (a.isNegative == b.isNegative) = true) :
    ∀ v s w t, a = .var v s → b = .var w t → s = t := by
  rintro v s w t rfl rfl
  simpa [isNegative] using signs

/-- Equal expressions are alike, if they are not bare variables of different signs. -/
theorem alike_of_same [OrderFree α] {a b : Node α} (same : a.same b = true)
    (signs : ∀ v s w t, a = .var v s → b = .var w t → s = t) : a.Alike b := by
  induction a using Node.induction generalizing b with
  | number x =>
    cases b with
    | number y =>
      rw [Node.same] at same
      rw [OrderFree.eq_of_beq same]
      exact .refl _
    | _ => simp [Node.same] at same
  | constant c negative =>
    cases b with
    | constant d sign =>
      simp only [Node.same, Bool.and_eq_true, beq_iff_eq] at same
      rw [same.1, same.2]
      exact .refl _
    | _ => simp [Node.same] at same
  | var v negative =>
    cases b with
    | var w sign =>
      rw [Node.same, beq_iff_eq] at same
      rw [same, signs v negative w sign rfl rfl]
      exact .refl _
    | _ => simp [Node.same] at same
  | power f base exponent =>
    cases b with
    | power g =>
      have parts := (Factor.same_eq f g).symm.trans same
      simp only [sameSigned, Bool.and_eq_true] at parts
      exact .power (base parts.1.1 (same_sign parts.1.2)) (exponent parts.2.1 (same_sign parts.2.2))
    | _ => simp [Node.same] at same
  | product t above below =>
    cases b with
    | product u =>
      obtain ⟨n, d, fs, gs⟩ := t
      obtain ⟨n', d', fs', gs'⟩ := u
      rw [Node.same] at same
      simp only [Bool.and_eq_true] at same
      obtain ⟨⟨⟨numerator, denominator⟩, factors⟩, divisors⟩ := same
      rw [OrderFree.eq_of_beq numerator, OrderFree.eq_of_beq denominator]
      have upper := Matches.of_same
        (fun f hf g equal => above f hf equal fun v s w t' power => by cases power) factors
      have lower := Matches.of_same
        (fun f hf g equal => below f hf equal fun v s w t' power => by cases power) divisors
      exact .product n' d' upper lower
    | _ => simp [Node.same] at same
  | sum ts each =>
    cases b with
    | sum us =>
      rw [Node.same] at same
      exact .sum (fun t ht u equal => each t ht equal fun v s w t' product => by cases product) same
    | _ => simp [Node.same] at same
  | unary f x ih =>
    cases b with
    | unary g y =>
      simp only [Node.same, Bool.and_eq_true, beq_iff_eq] at same
      rw [same.1]
      exact .unary g (ih same.2.1 (same_sign (beq_iff_eq.2 same.2.2)))
    | _ => simp [Node.same] at same
  | binary f x y left right =>
    cases b with
    | binary g z w =>
      simp only [Node.same, Bool.and_eq_true, beq_iff_eq] at same
      rw [same.1.1]
      exact .binary g (left same.1.2.1 (same_sign (beq_iff_eq.2 same.1.2.2)))
        (right same.2.1 (same_sign (beq_iff_eq.2 same.2.2)))
    | _ => simp [Node.same] at same

theorem alike_of_sameSigned [OrderFree α] {a b : Node α} (same : a.sameSigned b = true) :
    a.Alike b := by
  rw [sameSigned, Bool.and_eq_true] at same
  exact alike_of_same same.1 (same_sign same.2)

theorem alike_of_factor [OrderFree α] {f g : Factor (Node α)} (same : f.same g = true) :
    (Node.power f).Alike (.power g) := alike_of_same same nofun

/-- Like terms are alike but for their coefficients. -/
theorem alike_of_isLike [OrderFree α] {t u : Term α (Node α)} (like : t.isLike u = true) (n d : α) :
    (Node.product ⟨n, d, t.factors, t.divisors⟩).Alike (.product ⟨n, d, u.factors, u.divisors⟩) := by
  rw [Term.isLike, Bool.and_eq_true] at like
  exact .product n d (.of_same (fun _ _ _ => alike_of_factor) like.1)
    (.of_same (fun _ _ _ => alike_of_factor) like.2)

/-- A factor joins the first of equal base, or comes last. -/
theorem collectOne_cases {rules : ExponentRules α} {f : Factor (Node α)}
    {gs hs : List (Factor (Node α))} (collected : collectOne rules f gs = .ok hs) :
    hs = gs ++ [f] ∨ ∃ before g after e, g.base.sameSigned f.base = true ∧
      rules.add g.exponent f.exponent = .ok e ∧ gs = before ++ g :: after ∧
        hs = before ++ ⟨g.base, e⟩ :: after := by
  induction gs generalizing hs with
  | nil =>
    cases collected
    exact .inl rfl
  | cons g gs ih =>
    rw [collectOne] at collected
    split at collected
    · rename_i equal
      obtain ⟨e, added, rest⟩ := bind_eq_ok.1 collected
      cases rest
      exact .inr ⟨[], g, gs, e, equal, added, rfl, rfl⟩
    · obtain ⟨ks, later, rest⟩ := bind_eq_ok.1 collected
      cases rest
      rcases ih later with rfl | ⟨before, k, after, e, equal, added, rfl, rfl⟩
      · exact .inl rfl
      · exact .inr ⟨g :: before, k, after, e, equal, added, rfl, rfl⟩

/-- Equality holds of alike expressions only, if two bare variables have one sign. So like terms
are alike but for their coefficients, exponents are added of alike bases, and a tally counts alike
factors together. -/
theorem same_alike [OrderFree α] :
    (∀ a b : Node α, a.same b = true → (∀ v s w t, a = .var v s → b = .var w t → s = t) →
      a.Alike b) ∧
    (∀ t u : Term α (Node α), t.isLike u = true → ∀ n d : α,
      (Node.product ⟨n, d, t.factors, t.divisors⟩).Alike
        (.product ⟨n, d, u.factors, u.divisors⟩)) ∧
    (∀ (rules : ExponentRules α) (f : Factor (Node α)) (gs hs : List (Factor (Node α))),
      collectOne rules f gs = .ok hs → hs = gs ++ [f] ∨
        ∃ before g after e, g.base.Alike f.base ∧ rules.add g.exponent f.exponent = .ok e ∧
          gs = before ++ g :: after ∧ hs = before ++ ⟨g.base, e⟩ :: after) ∧
    ∀ (f : Factor (Node α)) (tally : Tally (Factor (Node α))),
      (tally.insert Factor.same f = tally ++ [(f, 1)] ∨
        ∃ before g k after, (Node.power g).Alike (.power f) ∧ tally = before ++ (g, k) :: after ∧
          tally.insert Factor.same f = before ++ (g, k + 1) :: after) ∧
      (tally.count Factor.same f = 0 ∨
        ∃ g, (Node.power g).Alike (.power f) ∧ (g, tally.count Factor.same f) ∈ tally) := by
  refine ⟨fun a b => alike_of_same, fun t u => alike_of_isLike, ?_, ?_⟩
  · intro rules f gs hs collected
    rcases collectOne_cases collected with last | ⟨before, g, after, e, equal, joined⟩
    · exact .inl last
    · exact .inr ⟨before, g, after, e, alike_of_sameSigned equal, joined⟩
  · intro f tally
    constructor
    · rcases Tally.insert_cases Factor.same f tally with fresh | ⟨before, g, k, after, equal, counted⟩
      · exact .inl fresh
      · exact .inr ⟨before, g, k, after, alike_of_factor equal, counted⟩
    · rcases Tally.count_cases Factor.same f tally with none | ⟨g, equal, member⟩
      · exact .inl none
      · exact .inr ⟨g, alike_of_factor equal, member⟩

/-- Two fractions with their factors in another order, and a factor that is certainly one. -/
theorem same_alike_reordered :
    let x : Node ℚ := .var ⟨'x', 0⟩ false
    let y : Node ℚ := .var ⟨'y', 0⟩ true
    let a : Node ℚ := .sum [⟨2, 3, [⟨x, .number 2⟩, ⟨y, x⟩], []⟩, ⟨1, 1, [], [⟨y, .number 1⟩]⟩]
    let b : Node ℚ := .sum [⟨1, 1, [Factor.empty], [⟨y, .number 1⟩]⟩,
      ⟨2, 3, [⟨y, x⟩, ⟨x, .number 0⟩, ⟨x, .number 2⟩], []⟩]
    a.same b = true ∧ a.Alike b := by
  intro x y a b
  have equal : a.same b = true := by decide +kernel
  exact ⟨equal, same_alike.1 a b equal nofun⟩

end Node

end SymbolicAlgebra
