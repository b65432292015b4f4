/-
  Products that are read back
  ===========================
  The text of a product is read from the left to the right: a first node, which is
  multiplied by one factor after the other, and divided by the divisors as a whole. The
  first node is the first factor, the opposite of it, or the coefficient, as the printer
  has chosen. Unless two nodes fuse, multiplying them gives the term of both
  (`Node.multiply_eq`), so that reading the text of a term gives its plainest node:
  **`Term.leads_plainest`**.

  Behind a minus sign the text of the opposite term is read. It starts with no sign of
  its own, or it is read without that sign: **`Term.opens_plainest`**.
-/
import SymbolicAlgebra.Proofs.Roundtrip.Reading
import SymbolicAlgebra.Proofs.Steady.Canonical

namespace SymbolicAlgebra

open Node

variable {α : Type} [FieldScalar α]

/-! ### Multiplying -/

namespace Node

/-- Whether the product of two nodes is more than the term of both: numbers are multiplied, a name
takes up a sign or is squared, and sums are multiplied out. -/
def fuses : Node α → Node α → Bool
  | .number _, .number _ => true
  | .constant _ _, n => n.isMinusOne
  | .var v _, .var w _ => v == w
  | .var _ _, n => n.isMinusOne
  | .sum _, .sum _ => true
  | _, _ => false

theorem multiply_eq {m n : Node α} (apart : m.fuses n = false) :
    m.multiply n = .ok (m.timesTerm n) := by
  cases m with
  | number x => cases n <;> first | rfl | cases apart
  | constant c negative =>
    have other : n.isMinusOne = false := apart
    rw [multiply, other, if_neg (by simp)]
  | var v negative =>
    have sign : ∀ k : Node α, k.isMinusOne = false →
        (.ok (if k.isMinusOne then .var v !negative else timesTerm (.var v negative) k) :
          Checked (Node α)) = .ok (timesTerm (.var v negative) k) := by
      intro k other
      rw [other, if_neg (by simp)]
    cases n with
    | var w opposite =>
      have other : (v == w) = false := apart
      rw [multiply, other, if_neg (by simp)]
    | _ => exact sign _ apart
  | sum ts => cases n <;> first | rfl | cases apart
  | _ => cases n <;> rfl

/-- A number fuses with numbers only. -/
theorem number_fuses (x : α) {n : Node α} (other : n.isNumber = false) :
    (Node.number x).fuses n = false := by
  cases n <;> first | rfl | cases other

/-- No node fuses with a product. -/
theorem fuses_product (m : Node α) (t : Term α (Node α)) : m.fuses (.product t) = false := by
  cases m <;> rfl

end Node

/-! ### The node of a product -/

namespace Factor

variable {f : Factor (Node α)}

/-- A factor that is shown as anything but a power stands under the plain exponent one. -/
theorem Lasts.eq_of_shown (h : f.Lasts) (other : f.shown.isPower = false) :
    f = ⟨f.shown, .number 1⟩ ∧ f.shown.keeps 1 = true := by
  cases unit : f.isUnit with
  | false =>
    rw [shown_of_other unit] at other
    cases other
  | true =>
    rw [shown_of_isUnit unit]
    exact ⟨eq_of_isUnit unit, (h.number 1 (eq_number_of_isUnit unit)).2⟩

end Factor

namespace Term

/-- The plainest node of a number and some factors above the bar. -/
def productNode (c : α) : List (Factor (Node α)) → Node α
  | [] => .number c
  | [f] =>
    if c == 1 then f.shown
    else if c == -1 then
      match f.shown with
      | .var v negative => .var v !negative
      | .constant k negative => .constant k !negative
      | _ => .product (normal c 1 [f] [])
    else .product (normal c 1 [f] [])
  | fs => .product (normal c 1 fs [])

/-- The plainest node of a term has divisors, or it is that of a product. -/
theorem Canonical.plainest_eq {t : Term α (Node α)} (h : t.Canonical) (nonzero : t.isZero = false) :
    t.plainest = if t.denominator == 1 && t.realDivisors.isEmpty then
      productNode t.numerator t.realFactors else .product t := by
  rw [plainest, h.reduceTerm_unfold nonzero fun f _ => ⟨rfl, rfl⟩]
  split
  · rename_i whole
    rw [Bool.and_eq_true, beq_iff_eq, List.isEmpty_iff] at whole
    have rebuilt := h.rebuilt
    rw [whole.1, whole.2] at rebuilt
    rcases factors : t.realFactors with _ | ⟨f, _ | ⟨g, gs⟩⟩
    · rfl
    · rw [factors] at rebuilt
      rewrite [productNode, rebuilt]
      rfl
    · rw [factors] at rebuilt
      exact congrArg Node.product rebuilt.symm
  · rfl

variable [ExactScalar α] {c : α} {f : Factor (Node α)} {fs gs : List (Factor (Node α))}

/-- The opposite of a factor by itself. -/
theorem negate_shown (h : f.Present) : f.shown.negate = productNode (-1) [f] := by
  have other : (-1 : α) ≠ 1 := by norm_num
  rw [productNode, beq_false_of_ne other, if_neg (by simp), if_pos (by simp)]
  have opposite : Node.product (normal (-1) 1 [f] []) = .product (wrap f.shown).negate := by
    rw [h.lasts.wrap_shown, negate_normal (by simpa using h) ExactScalar.one_lt_zero]
  have digits := h.lasts.shown_isNumber
  rw [opposite]
  cases shown : f.shown with
  | number x =>
    rw [shown] at digits
    cases digits
  | constant k negative => rfl
  | var v negative => rfl
  | _ =>
    rw [negate, FieldScalar.ofValue_eq]
    rfl

theorem wrap_productNode (present : ∀ f ∈ fs, f.Present) :
    wrap (productNode c fs) = normal c 1 fs [] := by
  rcases fs with _ | ⟨f, _ | ⟨g, gs⟩⟩
  · exact wrap_number c
  · have lasts := (List.forall_mem_singleton.1 present).lasts
    rw [productNode]
    split
    · rename_i one
      rw [lasts.wrap_shown, eq_of_beq one]
    · split
      · rename_i minus
        rw [eq_of_beq minus]
        split
        · rename_i v negative name
          obtain ⟨same, kept⟩ := lasts.eq_of_shown (by rw [name]; rfl)
          rw [name, keeps, ExactScalar.isWhole_one, Bool.and_true, Bool.not_eq_true'] at kept
          rw [wrap_var, same, name, kept]
          rfl
        · rename_i k negative name
          obtain ⟨same, kept⟩ := lasts.eq_of_shown (by rw [name]; rfl)
          rw [name, keeps, ExactScalar.isWhole_one, Bool.and_true, Bool.not_eq_true'] at kept
          rw [wrap_constant, same, name, kept]
          rfl
        · rfl
      · rfl
  · rfl

end Term

/-! ### Factors, one after the other -/

/-- Whether the node is a remainder. -/
def Node.isRemainder : Node α → Bool
  | .binary .remainder _ _ => true
  | _ => false

omit [FieldScalar α] in
theorem Node.isOperatorCall_of_isRemainder {n : Node α} (remainder : n.isRemainder = true) :
    n.isOperatorCall = true := by
  unfold isRemainder at remainder
  split at remainder
  · rfl
  · cases remainder

/-- A base under the exponent one is written in brackets where it cannot stand bare. -/
theorem Factor.toText_of_isUnit {f : Factor (Node α)} (unit : f.isUnit = true)
    (plain : f.base.unwrapped = f.base) :
    f.toText = bracketed (f.base.isAtomic && !f.base.isNegative) f.base.toText := by
  have exponent : f.exponent.unwrapped = .number 1 := by
    rw [eq_number_of_isUnit unit]
    rfl
  rw [toText, Node.toText, plain, exponent]
  unfold powerText
  dsimp only
  rw [if_pos (by simp [Node.isUnit])]

/-- An operator other than a remainder is written without brackets as a base. -/
theorem Factor.toText_operator {f : Factor (Node α)} (operator : f.base.isOperatorCall = true)
    (other : f.base.isRemainder = false) (unit : f.isUnit = true) : f.toText = f.base.toText := by
  cases base : f.base with
  | unary g x =>
    rw [toText_of_isUnit unit (by rw [base]; rfl), base]
    simp [bracketed, isAtomic, isNegative]
  | binary g x y =>
    rw [base] at operator other
    cases g with
    | remainder => cases other
    | _ => cases operator
  | _ =>
    rw [base] at operator
    cases operator

/-- The text of the factor builds its node; as that of a base under the exponent one it stands for
itself, and as a name it starts with no digit. -/
structure Factor.Written (f : Factor (Node α)) : Prop where
  power : Builds true .power f.toText f.shown
  operand : f.isUnit = true → Builds true .primary f.toText f.base
  name : f.shown.unsigned?.isSome = true → startsNumber f.toText = false

section Reading

variable [ExactScalar α] {bare : Bool} {c d : α} {text : String} {m : Node α}
  {f : Factor (Node α)} {fs gs hs : List (Factor (Node α))}

/-- A node times the node of a factor, as terms. -/
theorem Term.timesTerm_shown (wrapped : Term.wrap m = Term.normal c 1 hs [])
    (left : ∀ h ∈ hs, h.Present) (right : f.Present) :
    m.timesTerm f.shown = .product (Term.normal c 1 (hs ++ [f]) []) := by
  rw [timesTerm, wrapped, right.lasts.wrap_shown,
    Term.times_normal (by simpa using left) (by simpa using right) ExactScalar.one_lt_zero
      ExactScalar.one_lt_zero, mul_one, mul_one, List.append_nil]

/-- Factors that are multiplied to what is written in front of them. -/
theorem Builds.times_all (h : Builds bare .product text m)
    (wrapped : Term.wrap m = Term.normal c 1 hs []) (present : ∀ f ∈ hs ++ fs, f.Present)
    (written : ∀ f ∈ fs, f.Written) (apart : ∀ f ∈ fs.head?, m.fuses f.shown = false) :
    Builds bare .product (text ++ timesTexts fs)
      (if fs.isEmpty then m else .product (Term.normal c 1 (hs ++ fs) [])) := by
  induction fs generalizing text m hs with
  | nil => simpa [timesTexts] using h
  | cons f fs ih =>
    obtain ⟨left, right⟩ := List.forall_mem_append.1 present
    obtain ⟨first, later⟩ := List.forall_mem_cons.1 right
    obtain ⟨factor, others⟩ := List.forall_mem_cons.1 written
    have product : m.multiply f.shown = .ok (.product (Term.normal c 1 (hs ++ [f]) [])) := by
      rw [multiply_eq (apart f rfl), Term.timesTerm_shown wrapped left first]
    have rest := ih (h.times factor.power product) rfl (by simpa using present) others
      fun g _ => rfl
    have text' : text ++ timesTexts (f :: fs) = text ++ ("*" ++ f.toText) ++ timesTexts fs := by
      simp [timesTexts, String.append_assoc]
    rw [text', if_neg (by simp)]
    rw [List.append_assoc, List.singleton_append] at rest
    split at rest
    · rename_i none
      rwa [List.isEmpty_iff.1 none] at rest ⊢
    · exact rest

/-! ### A coefficient and factors -/

/-- The first factor does not fuse with the second. -/
def Unfused (fs : List (Factor (Node α))) : Prop :=
  ∀ f ∈ fs.head?, ∀ g ∈ fs.tail.head?, f.shown.fuses g.shown = false

/-- What is written first stays apart from what follows: an exponent that is certainly one is the
number itself, so that a sign can stand before the base, and without a coefficient in front of it
the first factor, or the opposite of it, does not fuse with the second. -/
structure Unmixed (c : α) (fs : List (Factor (Node α))) : Prop where
  plain : ∀ f ∈ fs.head?, f.exponent.isOne = true → f.isUnit = true
  apart : c = 1 → Unfused fs
  opposite : c = -1 → ∀ f ∈ fs.head?, ∀ g ∈ fs.tail.head?, f.shown.negate.fuses g.shown = false

omit [ExactScalar α] in
/-- A single factor with a number for its exponent stands apart from everything. -/
theorem Unmixed.of_number (single : fs.tail = []) (numbers : ∀ f ∈ fs, f.exponent.isNumber = true)
    (c : α) : Unmixed c fs := by
  refine ⟨fun f hf one => ?_, fun _ f _ g hg => ?_, fun _ f _ g hg => ?_⟩
  · have number := numbers f (List.mem_of_mem_head? hf)
    rw [Factor.isUnit]
    cases exponent : f.exponent with
    | number x =>
      rw [exponent, isOne] at one
      exact one
    | _ =>
      rw [exponent] at number
      cases number
  · rw [single] at hg
    cases hg
  · rw [single] at hg
    cases hg

/-- A text that builds the node of a product. It starts with no minus sign, or it builds a node of
the opposite term without it. -/
def Opens (text : String) (m : Node α) : Prop :=
  Builds true .product text m ∨ ∃ b k, text = "-" ++ b ∧ Builds false .product text m ∧
    Builds true .product b k ∧ Term.wrap k = (Term.wrap m).negate

omit [ExactScalar α] in
theorem Opens.toLeads (h : Opens text m) : Leads .product text m := by
  rcases h with bare | ⟨b, k, rfl, whole, -⟩
  · exact .inl bare
  · exact .inr ⟨startsMinus_append rfl b, whole⟩

omit [ExactScalar α] in
theorem Term.productNode_one :
    productNode 1 (f :: fs) =
      if fs.isEmpty then f.shown else .product (Term.normal 1 1 ([f] ++ fs) []) := by
  cases fs with
  | nil => rw [productNode, if_pos (by simp), if_pos (by simp)]
  | cons g gs => rfl

theorem Term.productNode_minusOne (present : f.Present) :
    productNode (-1) (f :: fs) =
      if fs.isEmpty then f.shown.negate else .product (Term.normal (-1) 1 ([f] ++ fs) []) := by
  cases fs with
  | nil => exact (negate_shown present).symm
  | cons g gs => rfl

omit [ExactScalar α] in
/-- A coefficient that is written in front of the factors. -/
theorem Term.productNode_number (one : c ≠ 1) (minus : c = -1 → f.shown.unsigned? = none) :
    productNode c (f :: fs) = .product (Term.normal c 1 (f :: fs) []) := by
  cases fs with
  | nil =>
    rw [productNode, if_neg (by simpa using one)]
    split
    · rename_i same
      have nameless := minus (eq_of_beq same)
      split
      · rename_i name
        rw [name] at nameless
        cases nameless
      · rename_i name
        rw [name] at nameless
        cases nameless
      · rfl
    · rfl
  | cons g gs => rfl

variable [ReadableScalar α]

/-- Factors behind a number, with a sign between them or without. -/
theorem builds_number (finite : Scalar.Finite c) (present : ∀ g ∈ f :: fs, g.Present)
    (written : ∀ g ∈ f :: fs, g.Written) {sign : String}
    (between : sign = "*" ∨ sign = "" ∧ startsNumber f.toText = false) :
    Builds (!Scalar.lt c 0) .product (Scalar.text c ++ sign ++ (f.toText ++ timesTexts fs))
      (.product (Term.normal c 1 (f :: fs) [])) := by
  obtain ⟨factor, others⟩ := List.forall_mem_cons.1 written
  have first := present f List.mem_cons_self
  have digits := first.lasts.shown_isNumber
  rcases between with rfl | ⟨rfl, starts⟩
  · have number := (Builds.number finite).ofUnary.ofPower
    have whole := number.times_all (Term.wrap_number c) (List.forall_mem_append.2
      ⟨List.forall_mem_nil _, present⟩) written (fun g hg => by cases hg; exact number_fuses c digits)
    have text' : Scalar.text c ++ "*" ++ (f.toText ++ timesTexts fs) =
        Scalar.text c ++ timesTexts (f :: fs) := by
      simp [timesTexts, String.append_assoc]
    rw [text']
    simpa using whole
  · have product : (Node.number c).multiply f.shown = .ok (.product (Term.normal c 1 [f] [])) := by
      rw [multiply_eq (number_fuses c digits),
        Term.timesTerm_shown (Term.wrap_number c) (List.forall_mem_nil _) first]
      rfl
    have number := Builds.juxtaposed finite factor.power starts product
    have whole := number.times_all rfl (List.forall_mem_append.2
      ⟨List.forall_mem_singleton.2 first, (List.forall_mem_cons.1 present).2⟩) others fun g _ => rfl
    have text' : Scalar.text c ++ "" ++ (f.toText ++ timesTexts fs) =
        Scalar.text c ++ f.toText ++ timesTexts fs := by
      simp [String.append_assoc]
    rw [text']
    split at whole
    · rename_i none
      rwa [List.isEmpty_iff.1 none] at whole ⊢
    · exact whole

/-- A number that is written in front of the factors, with its sign and without. -/
theorem opens_number (finite : Scalar.Finite c) (present : ∀ g ∈ f :: fs, g.Present)
    (written : ∀ g ∈ f :: fs, g.Written) {sign : String}
    (between : sign = "*" ∨ sign = "" ∧ startsNumber f.toText = false) :
    Opens (Scalar.text c ++ sign ++ (f.toText ++ timesTexts fs))
      (.product (Term.normal c 1 (f :: fs) [])) := by
  have whole := builds_number finite present written between
  cases negative : Scalar.lt c 0 with
  | false =>
    rw [negative] at whole
    exact .inl whole
  | true =>
    have turned := builds_number (ReadableScalar.finite_neg finite) present written between
    rw [ReadableScalar.neg_lt_zero negative] at turned
    rw [negative] at whole
    refine .inr ⟨_, _, ?_, whole, turned, ?_⟩
    · rw [ReadableScalar.text_negative finite negative]
      simp only [String.append_assoc]
    · exact (Term.negate_normal (by simpa using present) ExactScalar.one_lt_zero).symm

omit [ReadableScalar α]

/-- Factors without a coefficient. -/
theorem builds_joined (present : ∀ g ∈ f :: fs, g.Present) (written : ∀ g ∈ f :: fs, g.Written)
    (apart : Unfused (f :: fs)) :
    Builds true .product (f.toText ++ timesTexts fs) (Term.productNode 1 (f :: fs)) := by
  obtain ⟨factor, others⟩ := List.forall_mem_cons.1 written
  have lasts := (present f List.mem_cons_self).lasts
  rw [Term.productNode_one]
  exact factor.power.ofPower.times_all lasts.wrap_shown (by simpa using present) others
    (apart f rfl)

/-- Factors behind a minus sign, which stands on the first of them. -/
theorem builds_signed (present : ∀ g ∈ f :: fs, g.Present) (written : ∀ g ∈ f :: fs, g.Written)
    (unit : f.isUnit = true) (apart : ∀ g ∈ fs.head?, f.shown.negate.fuses g.shown = false) :
    Builds false .product ("-" ++ (f.toText ++ timesTexts fs)) (Term.productNode (-1) (f :: fs)) := by
  obtain ⟨factor, others⟩ := List.forall_mem_cons.1 written
  have first := present f List.mem_cons_self
  have head : Builds false .product ("-" ++ f.toText) f.shown.negate := by
    rw [Factor.shown_of_isUnit unit]
    exact (factor.operand unit).negated.ofUnary.ofPower
  have wrapped : Term.wrap f.shown.negate = Term.normal (-1) 1 [f] [] := by
    rw [Term.negate_shown first, Term.wrap_productNode (by simpa using first)]
  rw [Term.productNode_minusOne first, ← String.append_assoc]
  exact head.times_all wrapped (by simpa using present) others apart

omit [ExactScalar α] in
/-- The three ways in which a coefficient is written. -/
theorem productText_cases (c : α) (fs : List (Factor (Node α))) (first : f.Present)
    (factor : f.Written) :
    (c = 1 ∧ productText c (f :: fs) ((f :: fs).map Factor.toText) = f.toText ++ timesTexts fs) ∨
    (c = -1 ∧ f.exponent.isOne = true ∧
      productText c (f :: fs) ((f :: fs).map Factor.toText) = "-" ++ (f.toText ++ timesTexts fs)) ∨
    Term.productNode c (f :: fs) = .product (Term.normal c 1 (f :: fs) []) ∧
      ∃ sign, (sign = "*" ∨ sign = "" ∧ startsNumber f.toText = false) ∧
        productText c (f :: fs) ((f :: fs).map Factor.toText) =
          Scalar.text c ++ sign ++ (f.toText ++ timesTexts fs) := by
  rw [List.map_cons]
  unfold productText
  dsimp only
  rw [intercalate_times]
  by_cases one : c = 1
  · exact .inl ⟨one, if_pos (by simpa using one)⟩
  rw [if_neg (by simpa using one)]
  split
  · rename_i signed
    simp only [Bool.and_eq_true, Bool.not_eq_true', beq_iff_eq] at signed
    exact .inr (.inl ⟨signed.1.1, signed.2, rfl⟩)
  · rename_i unsigned
    refine .inr (.inr ⟨Term.productNode_number one ?_, _, ?_, rfl⟩)
    · -- a name behind minus one is written behind the sign alone
      rintro rfl
      rw [← Option.not_isSome_iff_eq_none]
      intro name
      have power : f.shown.isPower = false := by
        cases shown : f.shown with
        | power g =>
          rw [shown] at name
          cases name
        | _ => rfl
      have unit : f.exponent.isOne = true := by
        rw [(first.lasts.eq_of_shown power).1]
        simp [isOne]
      simp [factor.name name, unit] at unsigned
    · split
      · exact .inl rfl
      · rename_i plain
        exact .inr ⟨rfl, by simp_all⟩

variable [ReadableScalar α]

/-- The text of a coefficient and factors. -/
theorem leads_product (finite : Scalar.Finite c) (present : ∀ g ∈ f :: fs, g.Present)
    (written : ∀ g ∈ f :: fs, g.Written) (unmixed : Unmixed c (f :: fs)) :
    Leads .product (productText c (f :: fs) ((f :: fs).map Factor.toText))
      (Term.productNode c (f :: fs)) := by
  rcases productText_cases c fs (present f List.mem_cons_self)
    (written f List.mem_cons_self) with ⟨rfl, text⟩ | ⟨rfl, exponent, text⟩ | ⟨node, sign, between, text⟩
  · rw [text]
    exact .inl (builds_joined present written (unmixed.apart rfl))
  · rw [text]
    exact .inr ⟨startsMinus_append rfl _, builds_signed present written
      (unmixed.plain f rfl exponent) (unmixed.opposite rfl f rfl)⟩
  · rw [text, node]
    exact (opens_number finite present written between).toLeads

/-- Behind a minus sign the factors are read without their own, so they must not fuse then. -/
theorem opens_product (finite : Scalar.Finite c) (present : ∀ g ∈ f :: fs, g.Present)
    (written : ∀ g ∈ f :: fs, g.Written) (unmixed : Unmixed c (f :: fs))
    (unfused : c = -1 → Unfused (f :: fs)) :
    Opens (productText c (f :: fs) ((f :: fs).map Factor.toText))
      (Term.productNode c (f :: fs)) := by
  rcases productText_cases c fs (present f List.mem_cons_self)
    (written f List.mem_cons_self) with ⟨rfl, text⟩ | ⟨rfl, exponent, text⟩ | ⟨node, sign, between, text⟩
  · rw [text]
    exact .inl (builds_joined present written (unmixed.apart rfl))
  · rw [text]
    refine .inr ⟨_, Term.productNode 1 (f :: fs), rfl, builds_signed present written
      (unmixed.plain f rfl exponent) (unmixed.opposite rfl f rfl),
      builds_joined present written (unfused rfl), ?_⟩
    rw [Term.wrap_productNode present, Term.wrap_productNode present,
      Term.negate_normal (by simpa using present) ExactScalar.one_lt_zero, neg_neg]
  · rw [text, node]
    exact opens_number finite present written between

omit [ReadableScalar α] in
/-- Factors behind a first one that is written in its own way. -/
theorem Leads.first (h : Leads .product text f.shown) (present : ∀ g ∈ f :: fs, g.Present)
    (written : ∀ g ∈ fs, g.Written) (apart : ∀ g ∈ fs.head?, f.shown.fuses g.shown = false) :
    Leads .product (productText 1 (f :: fs) (text :: fs.map Factor.toText))
      (Term.productNode 1 (f :: fs)) := by
  have lasts := (present f List.mem_cons_self).lasts
  unfold productText
  dsimp only
  rw [intercalate_times, if_pos (by simp), Term.productNode_one]
  exact h.extend fun g => g.times_all lasts.wrap_shown (by simpa using present) written apart

end Reading

/-! ### Fractions -/

section Fractions

variable [ExactScalar α] {bare : Bool} {c d : α} {text : String} {m : Node α}
  {f g : Factor (Node α)} {fs gs : List (Factor (Node α))}

namespace Term

/-- A number under the exponent one scales the term. -/
theorem gather_number (x : α) (above : Bool) (rest : List (Factor (Node α) × Bool))
    (t : Term α (Node α)) :
    gather ((⟨.number x, .number 1⟩, above) :: rest) t = gather rest (t.scale above x) := by
  have real : (Node.number (1 : α)).isZero = false := by simp [Node.isZero]
  rw [gather_absorb real fun _ => rfl, absorb]
  dsimp only
  rw [ExactScalar.one_lt_zero, if_neg (by simp), multiplyBy]
  dsimp only
  rw [ExactScalar.power_one]

/-- One over a node is the node under the bar. -/
theorem fraction_eq (k : Node α) : fraction (.number 1) k = normal 1 1 [] [k.asFactor] := by
  have one : (Node.number (1 : α)).asFactor = ⟨.number 1, .number 1⟩ := rfl
  rw [fraction, ofNodes, normal, List.map_singleton, List.map_singleton, List.map_singleton, one,
    List.singleton_append, gather_number, scale, if_pos rfl, mul_one]
  rfl

theorem fraction_number (d : α) : fraction (.number 1) (.number d) = normal 1 d [] [] := by
  have digits : (Node.number d).asFactor = ⟨.number d, .number 1⟩ := rfl
  rw [fraction_eq, digits, normal, List.map_nil, List.nil_append, List.map_singleton,
    gather_number, scale, if_neg (by simp), one_mul]
  rfl

/-- A product under the bar dissolves. -/
theorem fraction_product (present : ∀ g ∈ gs, g.Present) (d : α) :
    fraction (.number 1) (.product (normal d 1 gs [])) = normal 1 d [] gs := by
  have all : ∀ g ∈ gs ++ [], g.Present := by simpa using present
  obtain ⟨numerator, denominator, factors, divisors⟩ :=
    normal_parts (n := d) all ExactScalar.one_lt_zero
  have inner : (Node.product (normal d 1 gs [])).asFactor =
      ⟨.product (normal d 1 gs []), .number 1⟩ := rfl
  have real : (Node.number (1 : α)).isZero = false := by simp [Node.isZero]
  rw [fraction_eq, inner, normal, List.map_nil, List.nil_append, List.map_singleton]
  conv_lhs => unfold gather
  rw [real, if_neg (by simp), if_pos (by simp [Node.isUnit])]
  dsimp only
  rw [sides, factors, divisors, scaleBy, if_neg (by simp), numerator, denominator, one_mul, one_mul]
  simp only [List.map_nil, List.append_nil, List.nil_append]
  rfl

end Term

variable [ReadableScalar α]

omit [ReadableScalar α] in
theorem minusOne_lt_zero : Scalar.lt (-1 : α) 0 = true := by
  have order := ExactScalar.lt_cast (α := α) (-1) 0
  simpa using order

theorem opens_numeral (finite : Scalar.Finite c) :
    Opens (Scalar.text c) (.number c : Node α) := by
  have number : Builds (!Scalar.lt c 0) .product (Scalar.text c) (.number c : Node α) :=
    (Builds.number finite).ofUnary.ofPower
  cases negative : Scalar.lt c 0 with
  | false =>
    rw [negative] at number
    exact .inl number
  | true =>
    rw [negative] at number
    have opposite : Builds true .product (Scalar.text (-c)) (.number (-c) : Node α) :=
      (Builds.numeral (ReadableScalar.finite_neg finite)
        (ReadableScalar.neg_lt_zero negative)).ofPrimary.ofUnary.ofPower
    refine .inr ⟨_, _, ReadableScalar.text_negative finite negative, number, opposite, ?_⟩
    rw [Term.wrap_number, Term.wrap_number,
      Term.negate_normal Term.none_present ExactScalar.one_lt_zero]

theorem leads_productText (finite : Scalar.Finite c) (present : ∀ f ∈ fs, f.Present)
    (written : ∀ f ∈ fs, f.Written) (unmixed : Unmixed c fs) :
    Leads .product (productText c fs (fs.map Factor.toText)) (Term.productNode c fs) := by
  cases fs with
  | nil => exact (opens_numeral finite).toLeads
  | cons f fs => exact leads_product finite present written unmixed

theorem opens_productText (finite : Scalar.Finite c) (present : ∀ f ∈ fs, f.Present)
    (written : ∀ f ∈ fs, f.Written) (unmixed : Unmixed c fs) (unfused : c = -1 → Unfused fs) :
    Opens (productText c fs (fs.map Factor.toText)) (Term.productNode c fs) := by
  cases fs with
  | nil => exact opens_numeral finite
  | cons f fs => exact opens_product finite present written unmixed unfused

/-- The text below the bar builds a node, and dividing by it puts the number and the divisors below
the bar. -/
theorem builds_below (finite : Scalar.Finite d) (positive : Scalar.lt d 0 = false)
    (present : ∀ g ∈ gs, g.Present) (written : ∀ g ∈ gs, g.Written) (unmixed : Unmixed d gs) :
    ∃ k : Node α, Builds false .power
        (bracketed (!(1 < gs.length || !gs.isEmpty && !(d == 1)))
          (productText d gs (gs.map Factor.toText))) k ∧
      Term.fraction (.number 1) k = Term.normal 1 d [] gs := by
  have whole := leads_productText finite present written unmixed
  cases gs with
  | nil => exact ⟨.number d, (Builds.numeral finite positive).ofPrimary.ofUnary, Term.fraction_number d⟩
  | cons g gs =>
    unfold Node.bracketed
    split
    · rename_i single
      obtain ⟨alone, one⟩ : gs = [] ∧ d = 1 := by
        simpa [List.length_pos_iff] using single
      subst alone one
      obtain ⟨power, -, -⟩ := written g List.mem_cons_self
      have text : productText (1 : α) [g] [g.toText] = g.toText := by
        rw [productText]
        simp
      refine ⟨g.shown, ?_, ?_⟩
      · rw [List.map_cons, List.map_nil, text]
        exact power.weaken
      · rw [Term.fraction_eq, (present g List.mem_cons_self).lasts.asFactor_shown]
    · rename_i composite
      have product : Term.productNode d (g :: gs) = .product (Term.normal d 1 (g :: gs) []) := by
        cases gs with
        | nil =>
          refine Term.productNode_number (fun one => composite (by simp [one])) ?_
          rintro rfl
          rw [minusOne_lt_zero] at positive
          cases positive
        | cons h hs => rfl
      refine ⟨Term.productNode d (g :: gs), whole.toBuilds.ofProduct.bracketed.ofPrimary.ofUnary, ?_⟩
      rw [product, Term.fraction_product present]

omit [ReadableScalar α] in
/-- A node divided by what stands below the bar. -/
theorem Builds.over {below : String} {k : Node α} (h : Builds bare .product text m)
    (wrapped : Term.wrap m = Term.normal c 1 fs []) (present : ∀ f ∈ fs ++ gs, f.Present)
    (positive : Scalar.lt d 0 = false) (divisor : Builds false .power below k)
    (fraction : Term.fraction (.number 1) k = Term.normal 1 d [] gs) :
    Builds bare .product (text ++ ("/" ++ below)) (.product (Term.normal c d fs gs)) := by
  obtain ⟨above, under⟩ := List.forall_mem_append.1 present
  apply h.divided divisor
  rw [divide, multiply_eq (fuses_product m _), timesTerm, fraction, wrapped,
    show Term.wrap (.product (Term.normal 1 d [] gs)) = Term.normal 1 d [] gs from rfl,
    Term.times_normal (by simpa using above) (by simpa using under) ExactScalar.one_lt_zero positive,
    mul_one, one_mul, List.append_nil, List.nil_append]

omit [ExactScalar α] [ReadableScalar α] in
/-- What stands below the bar is put behind what stands above it. -/
theorem fractionText_eq (above below : String) :
    fractionText d gs above below = above ++ fractionText d gs "" below := by
  unfold fractionText
  split
  · exact String.append_empty.symm
  · dsimp only
    rw [String.empty_append, String.append_assoc]

/-- The text of a fraction whose sides are read. -/
theorem Builds.fraction (h : Builds bare .product text m)
    (wrapped : Term.wrap m = Term.normal c 1 fs []) (finite : Scalar.Finite d)
    (positive : Scalar.lt d 0 = false) (present : ∀ f ∈ fs ++ gs, f.Present)
    (written : ∀ g ∈ gs, g.Written) (unmixed : Unmixed d gs) :
    Builds bare .product (fractionText d gs text (productText d gs (gs.map Factor.toText)))
      (if d == 1 && gs.isEmpty then m else .product (Term.normal c d fs gs)) := by
  obtain ⟨k, divisor, quotient⟩ :=
    builds_below finite positive (List.forall_mem_append.1 present).2 written unmixed
  unfold fractionText
  split
  · exact h
  · dsimp only
    rw [String.append_assoc]
    exact h.over wrapped present positive divisor quotient

theorem Leads.fraction (h : Leads .product text m)
    (wrapped : Term.wrap m = Term.normal c 1 fs []) (finite : Scalar.Finite d)
    (positive : Scalar.lt d 0 = false) (present : ∀ f ∈ fs ++ gs, f.Present)
    (written : ∀ g ∈ gs, g.Written) (unmixed : Unmixed d gs) :
    Leads .product (fractionText d gs text (productText d gs (gs.map Factor.toText)))
      (if d == 1 && gs.isEmpty then m else .product (Term.normal c d fs gs)) := by
  rw [fractionText_eq]
  refine h.extend fun g => ?_
  rw [← fractionText_eq]
  exact g.fraction wrapped finite positive present written unmixed

theorem Opens.fraction (h : Opens text m) (wrapped : Term.wrap m = Term.normal c 1 fs [])
    (finite : Scalar.Finite d) (positive : Scalar.lt d 0 = false)
    (present : ∀ f ∈ fs ++ gs, f.Present) (written : ∀ g ∈ gs, g.Written) (unmixed : Unmixed d gs) :
    Opens (fractionText d gs text (productText d gs (gs.map Factor.toText)))
      (if d == 1 && gs.isEmpty then m else .product (Term.normal c d fs gs)) := by
  rcases h with bare | ⟨b, n, rfl, whole, rest, opposite⟩
  · exact .inl (bare.fraction wrapped finite positive present written unmixed)
  · have above : ∀ f ∈ fs ++ [], f.Present := by
      simpa using (List.forall_mem_append.1 present).1
    have turned : Term.wrap n = Term.normal (-c) 1 fs [] := by
      rw [opposite, wrapped, Term.negate_normal above ExactScalar.one_lt_zero]
    refine .inr ⟨_, _, ?_, whole.fraction wrapped finite positive present written unmixed,
      rest.fraction turned finite positive present written unmixed, ?_⟩
    · rw [fractionText_eq, String.append_assoc, ← fractionText_eq]
    · split
      · exact opposite
      · exact (Term.negate_normal present positive).symm

/-! ### Terms -/

namespace Term

variable {t : Term α (Node α)}

/-- A canonical term whose text keeps its coefficient and its factors apart. -/
structure Regular (t : Term α (Node α)) : Prop extends t.Canonical where
  nonzero : t.isZero = false
  above : Unmixed t.numerator t.realFactors
  below : Unmixed t.denominator t.realDivisors

omit [ExactScalar α] [ReadableScalar α] in
/-- A term with a single power of a number is regular. -/
theorem Canonical.regular_of_single (h : t.Canonical) (nonzero : t.isZero = false)
    {f : Factor (Node α)} (only : t.realFactors ++ t.realDivisors = [f])
    (number : f.exponent.isNumber = true) : t.Regular := by
  have alone : ∀ g ∈ [f], g.exponent.isNumber = true := List.forall_mem_singleton.2 number
  rcases List.append_eq_singleton_iff.1 only with ⟨above, below⟩ | ⟨above, below⟩
  · refine ⟨h, nonzero, ?_, ?_⟩
    · rw [above]
      exact .of_number rfl (List.forall_mem_nil _) _
    · rw [below]
      exact .of_number rfl alone _
  · refine ⟨h, nonzero, ?_, ?_⟩
    · rw [above]
      exact .of_number rfl alone _
    · rw [below]
      exact .of_number rfl (List.forall_mem_nil _) _

omit [ExactScalar α] in
theorem Canonical.positive (h : t.Canonical) : Scalar.lt t.denominator 0 = false := by
  obtain ⟨above, below⟩ := List.forall_mem_append.1 h.lasts
  rw [← h.rebuilt, normal_eq_settled (fun f hf => (above f hf).stable) fun f hf => (below f hf).stable,
    settled]
  split
  · rename_i negative
    exact ReadableScalar.neg_lt_zero negative
  · rename_i positive
    simpa using positive

/-- The text of the term puts its parts together in the way they are read. -/
structure Written (t : Term α (Node α)) : Prop where
  numerator : Scalar.Finite t.numerator
  denominator : Scalar.Finite t.denominator
  factors : ∀ f ∈ t.realFactors, f.Written
  divisors : ∀ g ∈ t.realDivisors, g.Written
  /-- In front of a product a remainder is written without brackets. -/
  remainder : ∀ f ∈ t.realFactors.head?, f.base.isRemainder = true →
    Leads .product f.base.toText f.base

/-- Whether the text of the term starts with a remainder that stands in no brackets. -/
def startsRemainder (t : Term α (Node α)) : Bool :=
  t.numerator == 1 && t.realFactors.head?.any fun f => f.base.isRemainder && f.isUnit

/-- The minus sign that the text of the term starts with can be taken away: it belongs to no
remainder, and the factors do not fuse without it. -/
structure Detachable (t : Term α (Node α)) : Prop where
  remainder : t.startsRemainder = true → startsMinus t.toText = false
  unfused : t.numerator = -1 → Unfused t.realFactors

omit [ExactScalar α] [ReadableScalar α] in
/-- Factors are written by themselves, unless the first is a remainder. -/
theorem factorTexts_eq (other : t.startsRemainder = false) :
    factorTexts t.numerator t.realFactors = t.realFactors.map Factor.toText := by
  unfold startsRemainder at other
  cases shape : t.realFactors with
  | nil => rfl
  | cons f fs =>
    rw [factorTexts, List.map_cons]
    split
    · rename_i operator
      simp only [Bool.and_eq_true] at operator
      obtain ⟨⟨one, call⟩, unit⟩ := operator
      rw [shape, one, List.head?_cons, Option.any_some, unit, Bool.true_and, Bool.and_true] at other
      rw [Factor.toText_operator call other unit]
    · rfl

section Whole

variable (h : t.Regular) (written : t.Written)

include h written

/-- The text of the upper side of a term builds the node of it. -/
theorem leads_factors : Leads .product
    (productText t.numerator t.realFactors (factorTexts t.numerator t.realFactors))
    (productNode t.numerator t.realFactors) := by
  have present := (List.forall_mem_append.1 h.present).1
  cases remainder : t.startsRemainder with
  | false =>
    rw [factorTexts_eq remainder]
    exact leads_productText written.numerator present written.factors h.above
  | true =>
    unfold startsRemainder at remainder
    have apart := h.above.apart
    have factors := written.factors
    have operator := written.remainder
    cases shape : t.realFactors with
    | nil =>
      rw [shape, List.head?_nil, Option.any_none, Bool.and_false] at remainder
      cases remainder
    | cons f fs =>
      rw [shape] at remainder present apart factors operator
      simp only [List.head?_cons, Option.any_some, Bool.and_eq_true, beq_iff_eq] at remainder
      obtain ⟨one, base, unit⟩ := remainder
      have call : f.base.isOperatorCall = true := isOperatorCall_of_isRemainder base
      have first : Leads .product f.base.toText f.shown := by
        rw [Factor.shown_of_isUnit unit]
        exact operator f rfl base
      rw [one, factorTexts, call, unit, if_pos (by simp)]
      exact first.first present (List.forall_mem_cons.1 factors).2 (apart one f rfl)

/-- The text of a term builds its plainest node. -/
theorem leads_plainest : Leads .product t.toText t.plainest := by
  have present := (List.forall_mem_append.1 h.present).1
  have whole := (leads_factors h written).fraction (wrap_productNode present) written.denominator
    h.positive h.present written.divisors h.below
  rwa [h.rebuilt, ← toText_product, ← h.plainest_eq h.nonzero] at whole

/-- With or without the sign that it starts with, the text of a detachable term builds its plainest
node or the opposite of it. -/
theorem opens_plainest (detachable : t.Detachable) : Opens t.toText t.plainest := by
  cases remainder : t.startsRemainder with
  | false =>
    have present := (List.forall_mem_append.1 h.present).1
    have front := opens_productText written.numerator present written.factors h.above
      detachable.unfused
    have whole := front.fraction (wrap_productNode present) written.denominator h.positive h.present
      written.divisors h.below
    rwa [h.rebuilt, ← factorTexts_eq remainder, ← toText_product, ← h.plainest_eq h.nonzero] at whole
  | true => exact .inl ((leads_plainest h written).unsigned (detachable.remainder remainder))

end Whole

end Term

end Fractions

end SymbolicAlgebra
