/-
  Properties that carry over
  ==========================
  Much that is said of an expression holds of it because it holds of its parts: that
  its variables are among some names, say, or that none of its sums is empty. Numbers
  have such a property, no matter whether a variable or a constant has a sign, and of a
  term the real factors are enough.

  Some properties ask more of an exponent than of other parts, and more of a power
  inside a term or another power than of a power that stands by itself: a negative
  exponent crosses the bar as soon as the power becomes a factor. So a property is one
  for each `Place`, together with what it asks of exponents there (`CarriesOver`). One
  that makes no such difference is `Uniform`.

  Nothing builds a term but `Term.normal`, and nothing a sum but `Node.flattened`, so a
  property may also say what these two see to. It carries over to sums as well when a
  sum has it that is built from nodes that have it (`CarriesToSums`). A property that
  says nothing of a term or a sum beyond its parts is `Hereditary`.

  What the operations on expressions do to such a property is the same for all of
  them, so it is shown here once: building terms and sums in `Building`, simplifying,
  adding, multiplying and expanding in `Arithmetic`, evaluating in `Evaluation`, reading
  symbols in `Parsing`.
-/
import SymbolicAlgebra.Node.Reduce

namespace SymbolicAlgebra

variable {α : Type} [Scalar α]

/-- Where an expression stands: by itself, as the result of an operation or the argument of a
call, or inside a term or a power. -/
inductive Place where
  | alone
  | inside

/-- An expression has the property when its parts have it, and then they do have it. A sum has to
have terms. -/
class Hereditary (Q : Node α → Prop) : Prop where
  number : ∀ x, Q (.number x)
  constant : ∀ c negative, Q (.constant c negative)
  var : ∀ {v negative}, Q (.var v negative) → ∀ negative', Q (.var v negative')
  power : ∀ {f : Factor (Node α)}, Q (.power f) ↔ Q f.base ∧ Q f.exponent
  product : ∀ {t : Term α (Node α)}, Q (.product t) ↔
    (∀ f ∈ t.realFactors, Q (.power f)) ∧ ∀ g ∈ t.realDivisors, Q (.power g)
  terms : ∀ {ts : List (Term α (Node α))}, Q (.sum ts) → ∀ t ∈ ts, Q (.product t)
  sum : ∀ {ts : List (Term α (Node α))}, ts ≠ [] → (∀ t ∈ ts, Q (.product t)) → Q (.sum ts)
  unary : ∀ {f x}, Q (.unary f x) ↔ Q x
  binary : ∀ {f x y}, Q (.binary f x y) ↔ Q x ∧ Q y

/-- An expression has the property when its parts have it and its terms are built as they always
are, wherever they stand. -/
class Uniform (Q : Node α → Prop) : Prop where
  number : ∀ x, Q (.number x)
  constant : ∀ c negative, Q (.constant c negative)
  var : ∀ {v negative}, Q (.var v negative) → ∀ negative', Q (.var v negative')
  power : ∀ {f : Factor (Node α)}, Q (.power f) ↔ Q f.base ∧ Q f.exponent
  product : ∀ {n d : α} {fs gs : List (Factor (Node α))},
    (∀ f ∈ (Term.normal n d fs gs).factors, f = Factor.empty ∨ Q (.power f)) →
      (∀ g ∈ (Term.normal n d fs gs).divisors, g = Factor.empty ∨ Q (.power g)) →
        Q (.product (Term.normal n d fs gs))
  factors : ∀ {t : Term α (Node α)}, Q (.product t) →
    (∀ f ∈ t.realFactors, Q (.power f)) ∧ ∀ g ∈ t.realDivisors, Q (.power g)
  terms : ∀ {ts : List (Term α (Node α))}, Q (.sum ts) → ∀ t ∈ ts, Q (.product t)
  unary : ∀ {f x}, Q (.unary f x) ↔ Q x
  binary : ∀ {f x y}, Q (.binary f x y) ↔ Q x ∧ Q y

/-- What a property asks of an exponent, in the place where the power stands. -/
def Place.Exponent (Q : Place → Node α → Prop) (p : Place) (e : Node α) : Prop :=
  Q p (.power ⟨.number 1, e⟩)

/-- An expression has the property when its parts have it in the places where they stand, and its
exponents have what is asked of them. Only of a power it matters where it stands. -/
class CarriesOver (Q : Place → Node α → Prop) : Prop where
  number : ∀ {p} x, Q p (.number x)
  constant : ∀ {p c negative}, Q p (.constant c negative) → ∀ negative', Q p (.constant c negative')
  var : ∀ {p v negative}, Q p (.var v negative) → ∀ negative', Q p (.var v negative')
  power : ∀ {p} {f : Factor (Node α)},
    Q p (.power f) ↔ Q .inside f.base ∧ Place.Exponent Q p f.exponent
  product : ∀ {p} {n d : α} {fs gs : List (Factor (Node α))},
    (∀ f ∈ (Term.normal n d fs gs).factors, f = Factor.empty ∨ Q .inside (.power f)) →
      (∀ g ∈ (Term.normal n d fs gs).divisors, g = Factor.empty ∨ Q .inside (.power g)) →
        Q p (.product (Term.normal n d fs gs))
  factors : ∀ {p} {t : Term α (Node α)}, Q p (.product t) →
    (∀ f ∈ t.realFactors, Q .inside (.power f)) ∧ ∀ g ∈ t.realDivisors, Q .inside (.power g)
  terms : ∀ {p} {ts : List (Term α (Node α))}, Q p (.sum ts) → ∀ t ∈ ts, Q .inside (.product t)
  unary : ∀ {p f x}, Q p (.unary f x) ↔ Q .alone x
  binary : ∀ {p f x y}, Q p (.binary f x y) ↔ Q .alone x ∧ Q .alone y
  moved : ∀ {p q n}, (∀ f, n ≠ .power f) → Q p n → Q q n
  exponent : ∀ {p e}, Place.Exponent Q p e → Q .inside e
  exposed : ∀ {e}, Place.Exponent Q .inside e → Place.Exponent Q .alone e
  one : Place.Exponent Q .inside (.number 1)
  two : Place.Exponent Q .inside (.number (Scalar.ofInt 2))
  vanished : ∀ {p e}, Place.Exponent Q p e → e.isZero = true → Place.Exponent Q p (.number 0)
  rewritten : ∀ {p e e'}, Place.Exponent Q p e → Q .inside e' →
    (∀ x, e = .number x → e' = .number x) → Place.Exponent Q p e'
  crossed : ∀ {x}, Place.Exponent Q .alone (.number x) → Scalar.lt x 0 = true →
    Place.Exponent Q .inside (Node.ofValue (-x))
  entered : ∀ {e}, Place.Exponent Q .alone e → e.isZero = false →
    (∀ x, e = .number x → Scalar.lt x 0 = false) → Place.Exponent Q .inside e
  added : ∀ {m n r}, Place.Exponent Q .inside m → Place.Exponent Q .inside n → Q .inside r →
    (∀ x y, m = .number x → n = .number y → r = Node.ofValue (x + y)) →
      Place.Exponent Q .inside r
  cancelled : ∀ {x y}, Place.Exponent Q .inside (.number x) → Place.Exponent Q .inside (.number y) →
    Scalar.lt y x = true → Place.Exponent Q .inside (Node.ofValue (x - y))
  merged : ∀ {p f e}, Q p (.power f) → Place.Exponent Q p e →
    Q p (.power (Factor.raised (.power f) e))

/-- The property carries over to the sums that are built, too. -/
class CarriesToSums (Q : Place → Node α → Prop) : Prop extends CarriesOver Q where
  sum : ∀ {p q} {ns : List (Node α)}, (∀ n ∈ ns, Q p n) →
    (∀ t ∈ Node.flattened ns, Q .inside (.product t)) → Q q (.sum (Node.flattened ns))

namespace CarriesOver

variable {Q : Place → Node α → Prop} [CarriesOver Q] {p : Place}

theorem mkPower {base exponent : Node α} (hb : Q .inside base) (he : Place.Exponent Q p exponent) :
    Q p (.power ⟨base, exponent⟩) :=
  power.2 ⟨hb, he⟩

theorem exponent_at {e : Node α} (h : Place.Exponent Q .inside e) : Place.Exponent Q p e := by
  cases p with
  | alone => exact exposed h
  | inside => exact h

/-- What may stand inside a term may stand anywhere. -/
theorem anywhere {n : Node α} (h : Q .inside n) : Q p n := by
  cases n with
  | power f =>
    obtain ⟨base, exponent⟩ := power.1 h
    exact mkPower base (exponent_at exponent)
  | _ => exact moved nofun h

end CarriesOver

/-- The terms of a sum before they are put in order: those of its summands that are not certainly
zero, or the term zero. -/
def Node.contributed (ns : List (Node α)) : List (Term α (Node α)) :=
  let terms := (ns.flatMap summands).filter fun t => !t.isZero
  if terms.isEmpty then [Term.zero] else terms

theorem Node.flattened_perm (ns : List (Node α)) : (flattened ns).Perm (contributed ns) :=
  StableSort.sorted_perm precedes (contributed ns)

/-- Nodes in another order make the same sum, in another order. -/
theorem Node.flattened_of_perm {ns ms : List (Node α)} (order : ns.Perm ms) :
    (flattened ns).Perm (flattened ms) := by
  have terms := (order.flatMap_right summands).filter fun t => !t.isZero
  have contributions : (contributed ns).Perm (contributed ms) := by
    unfold contributed
    dsimp only
    split
    · rename_i empty
      have none := List.nil_perm.1 (List.isEmpty_iff.1 empty ▸ terms)
      rw [if_pos (List.isEmpty_iff.2 none)]
    · rename_i some
      rw [if_neg]
      · exact terms
      · intro empty
        exact some (List.isEmpty_iff.2 (List.perm_nil.1 (List.isEmpty_iff.1 empty ▸ terms)))
  exact (flattened_perm ns).trans (contributions.trans (flattened_perm ms).symm)

/-- A sum is never built without terms. -/
theorem Node.flattened_ne_nil (ns : List (Node α)) : flattened ns ≠ [] := by
  intro none
  have order := flattened_perm ns
  rw [none, contributed] at order
  have empty := List.nil_perm.1 order
  split at empty
  · cases empty
  · rename_i present
    exact present (List.isEmpty_iff.2 empty)

/-- A term of a sum comes from a summand, or the sum is zero. -/
theorem Node.mem_flattened {ns : List (Node α)} {t : Term α (Node α)} (h : t ∈ flattened ns) :
    contributed ns = [Term.zero] ∧ t = Term.zero ∨ (∃ n ∈ ns, t ∈ n.summands) ∧ t.isZero = false := by
  rw [(flattened_perm ns).mem_iff] at h
  unfold contributed at h ⊢
  dsimp only at h ⊢
  split at h
  · rename_i empty
    exact .inl ⟨if_pos empty, List.mem_singleton.1 h⟩
  · obtain ⟨member, present⟩ := List.mem_filter.1 h
    obtain ⟨n, hn, contributes⟩ := List.mem_flatMap.1 member
    exact .inr ⟨⟨n, hn, contributes⟩, by simpa using present⟩

/-- Nodes that contribute the terms of an ordered sum make that sum. -/
theorem Node.flattened_eq {nodes : List (Node α)} {ts : List (Term α (Node α))}
    (contributed : nodes.flatMap summands = ts) (some : ts ≠ [])
    (nonzero : ∀ t ∈ ts, t.isZero = false) (ordered : ts.Pairwise fun t u => precedes u t = false) :
    flattened nodes = ts := by
  have kept : (nodes.flatMap summands).filter (fun t => !t.isZero) = ts := by
    rw [contributed]
    apply List.filter_eq_self.2
    intro t ht
    rw [nonzero t ht, Bool.not_false]
  rw [flattened, kept, if_neg (by simpa using some)]
  exact StableSort.sorted_eq_self ordered

/-- A node that is no sum contributes its term, unless that is nothing but a sum. -/
theorem Node.summands_eq {n : Node α} {t : Term α (Node α)} (whole : ∀ ts, n ≠ .sum ts)
    (wrapped : Term.wrap n = t) (bare : t.soleSum? = none) : n.summands = [t] := by
  unfold summands
  split
  · exact absurd rfl (whole _)
  · dsimp only
    rw [wrapped, bare]
    rfl

/-- Terms that are not nothing but a sum contribute themselves. -/
theorem Node.flatMap_summands {ts : List (Term α (Node α))} (plain : ∀ t ∈ ts, t.soleSum? = none) :
    (ts.map Node.product).flatMap summands = ts := by
  induction ts with
  | nil => rfl
  | cons t ts ih =>
    obtain ⟨first, later⟩ := List.forall_mem_cons.1 plain
    rw [List.map_cons, List.flatMap_cons, ih later, summands_eq (n := .product t) nofun rfl first]
    rfl

/-- What it means to be nothing but a sum in brackets. -/
theorem Term.soleSum?_eq_some {t : Term α (Node α)} {ts : List (Term α (Node α))} :
    t.soleSum? = some ts ↔ ((t.numerator == 1) = true ∧ (t.denominator == 1) = true) ∧
      ∃ e : Node α, e.isUnit = true ∧ t.realFactors = [⟨.sum ts, e⟩] ∧ t.realDivisors = [] := by
  unfold soleSum?
  constructor
  · intro sole
    split at sole
    · rename_i coefficient
      split at sole
      · rename_i us e above below
        split at sole
        · rename_i unit
          cases sole
          exact ⟨Bool.and_eq_true_iff.1 coefficient, e, unit, above, below⟩
        · cases sole
      · cases sole
    · cases sole
  · rintro ⟨coefficient, e, unit, above, below⟩
    rw [if_pos (Bool.and_eq_true_iff.2 coefficient), above, below]
    exact if_pos unit

instance {Q : Node α → Prop} [Hereditary Q] : Uniform Q where
  number := Hereditary.number
  constant := Hereditary.constant
  var := Hereditary.var
  power := Hereditary.power
  product above below := by
    have real : ∀ {fs : List (Factor (Node α))},
        (∀ f ∈ fs, f = Factor.empty ∨ Q (.power f)) → ∀ f ∈ realFactors fs, Q (.power f) := by
      intro fs each f hf
      rcases each f (List.mem_filter.1 hf).1 with rfl | holds
      · exact Hereditary.power.2 ⟨Hereditary.number _, Hereditary.number _⟩
      · exact holds
    exact Hereditary.product.2 ⟨real above, real below⟩
  factors := Hereditary.product.1
  terms := Hereditary.terms
  unary := Hereditary.unary
  binary := Hereditary.binary

theorem Uniform.exponent {Q : Node α → Prop} [Uniform Q] {p : Place} {e : Node α} :
    Place.Exponent (fun _ => Q) p e ↔ Q e :=
  power.trans (and_iff_right (number 1))

/-- A uniform property carries over, and asks of an exponent what it asks of any part. -/
instance {Q : Node α → Prop} [Uniform Q] : CarriesOver (fun _ => Q) where
  number := Uniform.number
  constant _ := Uniform.constant _
  var := Uniform.var
  power := Uniform.power.trans (and_congr_right fun _ => Uniform.exponent.symm)
  product := Uniform.product
  factors := Uniform.factors
  terms := Uniform.terms
  unary := Uniform.unary
  binary := Uniform.binary
  moved _ h := h
  exponent := Uniform.exponent.1
  exposed h := h
  one := Uniform.exponent.2 (Uniform.number _)
  two := Uniform.exponent.2 (Uniform.number _)
  vanished _ _ := Uniform.exponent.2 (Uniform.number _)
  rewritten _ h _ := Uniform.exponent.2 h
  crossed _ _ := Uniform.exponent.2 (Uniform.number _)
  entered h _ _ := h
  added _ _ h _ := Uniform.exponent.2 h
  cancelled _ _ _ := Uniform.exponent.2 (Uniform.number _)
  merged {p f e} h he := by
    have apart : Q (.power ⟨.power f, e⟩) := Uniform.power.2 ⟨h, Uniform.exponent.1 he⟩
    unfold Factor.raised
    split
    · rename_i inner x y shown
      split
      · cases shown
        exact Uniform.power.2 ⟨(Uniform.power.1 h).1, Uniform.number _⟩
      · exact apart
    · exact apart

instance {Q : Node α → Prop} [Hereditary Q] : CarriesToSums (fun _ => Q) where
  sum _ := Hereditary.sum (Node.flattened_ne_nil _)

end SymbolicAlgebra
