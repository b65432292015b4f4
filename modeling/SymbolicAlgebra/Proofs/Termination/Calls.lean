/-
  Nested calls
  ============
  Simplifying, reducing and adding call each other on expressions that are no parts of
  the one they are called with. Here is this recursion without any measure that bounds it:
  `Calls.step` is what one call does with the calls that it makes, and `Calls.nested k` is
  the recursion cut off below `k` nested calls, where something else answers.

  A run *rests* when from some number of nested calls on it has one result, whatever
  answers at the bottom: then no call is ever nested deeper, so it comes to an end
  (`Calls.Rests`). **`Calls.rests_reduce`** says that reducing does, since no call has to
  do with an expression that is higher than the one before.
-/
import SymbolicAlgebra.Node.Simplify
import SymbolicAlgebra.Proofs.Checked
import SymbolicAlgebra.Proofs.Lasting.Height

namespace SymbolicAlgebra

/-- What answers when an expression is to be simplified or reduced, or two are to be added. -/
structure Calls (α : Type) where
  simplify : Node α → Checked (Node α)
  reduce : Node α → Checked (Node α)
  add : Node α → Node α → Checked (Node α)

namespace Calls

variable {α β γ : Type} [Scalar α]

/-! ### What a call does -/

section Step

variable (calls : Calls α)

/-- Exponents are added, and simplified and then reduced. -/
def rules : ExponentRules α where
  add := calls.add
  tidy e := do calls.reduce (← calls.simplify e)

/-- Simplifies a base. A factor goes on to reduce the base, so this is called, too. -/
def simplifyBase (n : Node α) : Checked (Node α) := do
  let simple ← calls.simplify n
  let _ ← calls.reduce simple
  return simple

/-- Reduces a factor. -/
def reduceFactor (f : Factor (Node α)) : Checked (Node α) := do
  let base ← calls.reduce f.base
  let exponent ← calls.reduce f.exponent
  return Node.reduceFactor id ⟨base, exponent⟩

/-- Reduces a term, and then the one factor that may be left of it. -/
def reduceTerm (t : Term α (Node α)) : Checked (Node α) := do
  let above ← t.realFactors.mapM calls.reduceFactor
  let below ← t.realDivisors.mapM calls.reduceFactor
  let reduced := Term.ofNodes t.numerator t.denominator above below
  if reduced.isZero then return .number 0
  else if reduced.denominator == 1 && reduced.realDivisors.isEmpty then
    match reduced.realFactors with
    | [] => return Node.ofValue reduced.numerator
    | [f] => do
      let only ← calls.reduceFactor f
      if reduced.numerator == 1 then return only
      else if reduced.numerator == -1 then
        match only with
        | .var v negative => return .var v !negative
        | .constant c negative => return .constant c !negative
        | _ => return .product reduced
      else return .product reduced
    | _ => return .product reduced
  else return .product reduced

/-- Simplifies the terms of a sum and merges the like ones. -/
def simplifyTerms (ts : List (Term α (Node α))) : Checked (List (Term α (Node α))) :=
  Node.simplifySum (Node.simplifyTerm calls.rules calls.simplifyBase) ts

/-- One call of each kind, with the calls that it makes. -/
def step : Calls α where
  simplify
    | .power f => return .power (← Node.simplifyFactor calls.rules calls.simplifyBase f)
    | .product t => return .product (← Node.simplifyTerm calls.rules calls.simplifyBase t)
    | .sum ts => return .sum (← calls.simplifyTerms ts)
    | .unary f x => return .unary f (← calls.simplify x)
    | .binary f x y => return .binary f (← calls.simplify x) (← calls.simplify y)
    | n => return n
  reduce
    | .power f => calls.reduceFactor f
    | .product t => calls.reduceTerm t
    | .sum [t] => calls.reduceTerm t
    | .sum ts => return .sum (Node.flattened (← ts.mapM calls.reduceTerm))
    | .unary f x => return .unary f (← calls.reduce x)
    | .binary f x y => return .binary f (← calls.reduce x) (← calls.reduce y)
    | n => return n
  add := Node.addWith calls.simplifyTerms

/-- The recursion with the given number of nested calls. -/
def nested (stop : Calls α) : Nat → Calls α
  | 0 => stop
  | k + 1 => (stop.nested k).step

end Step

/-! ### Runs that come to an end -/

/-- From some number of nested calls on the run has the result, whatever answers at the bottom, and
the result has the property if it is there. -/
structure Rests (Q : β → Prop) (run : Calls α → Checked β) (result : Checked β) : Prop where
  ends : ∃ k, ∀ (stop : Calls α) (j : Nat), k ≤ j → run (stop.nested j) = result
  yields : Yields Q result

namespace Rests

variable {Q : β → Prop} {R : γ → Prop} {run : Calls α → Checked β} {result : Checked β}

/-- What calls nothing rests. -/
theorem still (yields : Yields Q result) : Rests Q (fun _ : Calls α => result) result :=
  ⟨⟨0, fun _ _ _ => rfl⟩, yields⟩

theorem ok {b : β} (h : Q b) : Rests Q (fun _ : Calls α => .ok b) (.ok b) :=
  still (.ok h)

theorem mono {Q' : β → Prop} (h : Rests Q run result) (weaker : ∀ b, Q b → Q' b) :
    Rests Q' run result :=
  ⟨h.ends, h.yields.mono weaker⟩

/-- A run that rests has one result. -/
theorem unique {Q' : β → Prop} {other : Checked β} (h : Rests Q run result)
    (h' : Rests Q' run other) : result = other := by
  obtain ⟨k, settled⟩ := h.ends
  obtain ⟨k', settled'⟩ := h'.ends
  let stop : Calls α := ⟨.ok, .ok, fun m _ => .ok m⟩
  exact (settled stop (max k k') (Nat.le_max_left k k')).symm.trans
    (settled' stop (max k k') (Nat.le_max_right k k'))

/-- A call rests if what it does rests. -/
theorem step (h : Rests Q (fun calls => run calls.step) result) : Rests Q run result := by
  obtain ⟨k, settled⟩ := h.ends
  refine ⟨⟨k + 1, ?_⟩, h.yields⟩
  intro stop j le
  obtain ⟨i, rfl⟩ : ∃ i, j = i + 1 := ⟨j - 1, by omega⟩
  exact settled stop i (by omega)

theorem bind {next : Calls α → β → Checked γ} {f : β → Checked γ} (first : Rests Q run result)
    (later : ∀ b, Q b → Rests R (fun calls => next calls b) (f b)) :
    Rests R (fun calls => run calls >>= next calls) (result >>= f) := by
  obtain ⟨k, settled⟩ := first.ends
  refine ⟨?_, first.yields.bind fun b hb => (later b hb).yields⟩
  cases result with
  | error cause =>
    refine ⟨k, ?_⟩
    intro stop j le
    show run (stop.nested j) >>= _ = _
    rw [settled stop j le]
    rfl
  | ok b =>
    obtain ⟨k', settled'⟩ := (later b (first.yields b rfl)).ends
    refine ⟨max k k', ?_⟩
    intro stop j le
    show run (stop.nested j) >>= _ = _
    rw [settled stop j (Nat.le_trans (Nat.le_max_left k k') le)]
    exact settled' stop j (Nat.le_trans (Nat.le_max_right k k') le)

/-- A run whose first part rests with a known result. -/
theorem after {b : β} {next : Calls α → β → Checked γ} {result : Checked γ}
    (first : Rests (· = b) run (.ok b)) (later : Rests R (fun calls => next calls b) result) :
    Rests R (fun calls => run calls >>= next calls) result := by
  have both : Rests R (fun calls => run calls >>= next calls) (.ok b >>= fun _ => result) := by
    refine first.bind fun c same => ?_
    rw [same]
    exact later
  exact both

theorem ite {p : Prop} [Decidable p] {run' : Calls α → Checked β} {result' : Checked β}
    (yes : p → Rests Q run result) (no : ¬ p → Rests Q run' result') :
    Rests Q (fun calls => if p then run calls else run' calls) (if p then result else result') := by
  by_cases holds : p
  · simp only [if_pos holds]
    exact yes holds
  · simp only [if_neg holds]
    exact no holds

theorem mapM {run : Calls α → β → Checked γ} {f : β → Checked γ} {bs : List β}
    (each : ∀ b ∈ bs, Rests R (fun calls => run calls b) (f b)) :
    Rests (∀ c ∈ ·, R c) (fun calls => bs.mapM (run calls)) (bs.mapM f) := by
  induction bs with
  | nil => exact ok (List.forall_mem_nil _)
  | cons b bs ih =>
    obtain ⟨head, tail⟩ := List.forall_mem_cons.1 each
    simp only [List.mapM_cons]
    refine head.bind fun c hc => (ih tail).bind fun cs hcs => ?_
    exact ok (List.forall_mem_cons.2 ⟨hc, hcs⟩)

theorem mapM_ok {run : Calls α → β → Checked γ} {f : β → γ} {bs : List β}
    (each : ∀ b ∈ bs, Rests (· = f b) (fun calls => run calls b) (.ok (f b))) :
    Rests (· = bs.map f) (fun calls => bs.mapM (run calls)) (.ok (bs.map f)) := by
  induction bs with
  | nil => exact ok rfl
  | cons b bs ih =>
    obtain ⟨head, tail⟩ := List.forall_mem_cons.1 each
    simp only [List.mapM_cons]
    exact head.after ((ih tail).after (ok rfl))

theorem foldlM {run : Calls α → γ → β → Checked γ} {f : γ → β → Checked γ} {bs : List β}
    (each : ∀ b ∈ bs, ∀ c, R c → Rests R (fun calls => run calls c b) (f c b)) {c : γ}
    (start : R c) : Rests R (fun calls => bs.foldlM (run calls) c) (bs.foldlM f c) := by
  induction bs generalizing c with
  | nil => exact ok start
  | cons b bs ih =>
    obtain ⟨head, tail⟩ := List.forall_mem_cons.1 each
    simp only [List.foldlM_cons]
    exact (head c start).bind fun d kept => ih tail kept

end Rests

/-! ### Reducing -/

section Reduce

variable {k : Nat}
  (inner : ∀ n : Node α, n.Low k →
    Rests (· = n.reduce) (fun calls => calls.reduce n) (.ok n.reduce))

include inner

theorem rests_reduceFactor {f : Factor (Node α)} (low : f.Under Node.Low Node.Low k) :
    Rests (· = Node.reduceFactor Node.reduce f) (fun calls => calls.reduceFactor f)
      (.ok (Node.reduceFactor Node.reduce f)) :=
  (inner f.base low.base).after ((inner f.exponent low.exponent).after (.ok rfl))

theorem rests_reduceTerm {t : Term α (Node α)}
    (low : ∀ f ∈ t.realParts, f.Under Node.Low Node.Low k) :
    Rests (· = Node.reduceTerm Node.reduce t) (fun calls => calls.reduceTerm t)
      (.ok (Node.reduceTerm Node.reduce t)) := by
  have built := Node.low_grading.reducedFactors Node.Low.reduce Node.Low.reduce low
  have factors : ∀ {fs : List (Factor (Node α))}, (∀ f ∈ fs, f.Under Node.Low Node.Low k) →
      Rests (· = fs.map (Node.reduceFactor Node.reduce)) (fun calls => fs.mapM calls.reduceFactor)
        (.ok (fs.map (Node.reduceFactor Node.reduce))) := by
    intro fs each
    exact .mapM_ok fun f hf => rests_reduceFactor inner (each f hf)
  obtain ⟨above, below⟩ := Term.forall_realParts.1 low
  refine (factors above).after ((factors below).after ?_)
  unfold Node.reduceTerm
  dsimp only
  generalize Term.ofNodes t.numerator t.denominator
    (t.realFactors.map (Node.reduceFactor Node.reduce))
    (t.realDivisors.map (Node.reduceFactor Node.reduce)) = reduced at built
  by_cases zero : reduced.isZero = true
  · simp only [if_pos zero]
    exact .ok rfl
  · simp only [if_neg zero]
    by_cases plain : (reduced.denominator == 1 && reduced.realDivisors.isEmpty) = true
    · simp only [if_pos plain]
      rcases shape : reduced.realFactors with _ | ⟨f, _ | ⟨h, fs⟩⟩
      · exact .ok rfl
      · have member : f ∈ reduced.realParts := List.mem_append_left _ (shape ▸ List.mem_cons_self)
        refine (rests_reduceFactor inner (Node.low_grading.parts built f member)).after ?_
        dsimp only
        generalize Node.reduceFactor Node.reduce f = only
        cases only <;> dsimp only <;> split_ifs <;> exact .ok rfl
      · exact .ok rfl
    · simp only [if_neg plain]
      exact .ok rfl

end Reduce

/-- Reducing comes to an end. -/
theorem rests_reduce {k : Nat} {n : Node α} (low : n.Low k) :
    Rests (· = n.reduce) (fun calls => calls.reduce n) (.ok n.reduce) := by
  induction k generalizing n with
  | zero =>
    obtain ⟨x, rfl⟩ | ⟨c, negative, rfl⟩ | ⟨v, negative, rfl⟩ := Node.low_grading.leaf low
    · exact .step (.ok rfl)
    · exact .step (.ok rfl)
    · exact .step (.ok rfl)
  | succ k ih =>
    have inner : ∀ n : Node α, n.Low k →
        Rests (· = n.reduce) (fun calls => calls.reduce n) (.ok n.reduce) := fun n low => ih low
    apply Rests.step
    cases n with
    | number | constant | var => exact .ok rfl
    | power f =>
      obtain ⟨j, same, base, exponent⟩ := Node.low_grading.power.1 low
      obtain rfl := Nat.succ.inj same
      rw [Node.reduce_power low.2]
      exact rests_reduceFactor inner ⟨base, exponent⟩
    | product t =>
      rw [Node.reduce_product low.2]
      exact rests_reduceTerm inner (Node.low_grading.parts low)
    | sum ts =>
      obtain ⟨j, same, some, each⟩ := Node.low_grading.sum.1 low
      obtain rfl := Nat.succ.inj same
      have terms : ∀ t ∈ ts, Rests (· = Node.reduceTerm Node.reduce t)
          (fun calls => calls.reduceTerm t) (.ok (Node.reduceTerm Node.reduce t)) := by
        intro t ht
        exact rests_reduceTerm inner (Node.low_grading.parts_below (each t ht))
      rcases ts with _ | ⟨t, _ | ⟨u, ts⟩⟩
      · exact absurd rfl some
      · rw [Node.reduce_single low.2]
        exact terms t List.mem_cons_self
      · rw [Node.reduce_sum (by simp) low.2]
        exact (Rests.mapM_ok terms).after (.ok rfl)
    | unary f x =>
      obtain ⟨j, same, argument⟩ := Node.low_grading.unary.1 low
      obtain rfl := Nat.succ.inj same
      rw [Node.reduce_unary argument.2]
      exact (inner x argument).after (.ok rfl)
    | binary f x y =>
      obtain ⟨j, same, left, right⟩ := Node.low_grading.binary.1 low
      obtain rfl := Nat.succ.inj same
      rw [Node.reduce_binary left.2 right.2]
      exact (inner x left).after ((inner y right).after (.ok rfl))

end Calls

end SymbolicAlgebra
