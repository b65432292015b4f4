/-
  Writing expressions
  ===================
  The text of an expression, with the brackets it needs to be read back: around a
  base that is not atomic, around an exponent that is neither atomic nor a power,
  around a denominator of several parts, and around the operands of `%` and `!`.

  A power of one is written as its base wherever it stands under another node, and a
  term of a sum that is written with a minus sign is subtracted instead. The sign of
  that term is turned by building it anew, so the recursion is not on the tree; it
  ends because a term does not grow with its sign (`Term.size_negate_le`).
-/
import SymbolicAlgebra.Node.TermSize

-- a sum of whole numbers starts from their own zero, whatever else has one
attribute [local instance (1100)] Zero.ofOfNat0

namespace SymbolicAlgebra

variable {α : Type} [Scalar α]

namespace Node

/-- Whether the text of the node can be the base of a power without brackets. -/
def isAtomic : Node α → Bool
  | .number _ | .constant .. | .var .. => true
  | .unary _ _ => true
  | .binary f _ _ => !f.isOperator
  | _ => false

/-- Whether the node is written with an operator sign instead of a function name. -/
def isOperatorCall : Node α → Bool
  | .unary f _ => f.isOperator
  | .binary f _ _ => f.isOperator
  | _ => false

/-- Whether the node is a power. -/
def isPower : Node α → Bool
  | .power _ => true
  | _ => false

/-- The node without the powers of one around it. -/
def unwrapped : Node α → Node α
  | .power ⟨base, .number x⟩ => if x == 1 then base.unwrapped else .power ⟨base, .number x⟩
  | n => n

/-- The text in brackets, unless it can stand bare. -/
def bracketed (bare : Bool) (text : String) : String :=
  if bare then text else "(" ++ text ++ ")"

/-- A minus sign in front of a text. -/
def signedText (negative : Bool) (text : String) : String :=
  if negative then "-" ++ text else text

/-- The text of a power, from its unwrapped parts and their texts. -/
def powerText (base : Node α) (baseText : String) (exponent : Node α) (exponentText : String) :
    String :=
  let below := bracketed (base.isAtomic && !base.isNegative) baseText
  if exponent.isUnit then below
  else
    below ++ "^" ++
      bracketed ((exponent.isAtomic || exponent.isPower) && !exponent.isNegative) exponentText

/-- Whether a text starts with a digit or a point. -/
def startsNumber (text : String) : Bool :=
  match text.toList with
  | c :: _ => Text.isDigit c || c == '.'
  | [] => false

/-- The text of a coefficient and factors whose texts are given. A coefficient of one is left
out, and so is the digit of minus one where the sign alone can be read. -/
def productText (coefficient : α) (factors : List (Factor (Node α))) (texts : List String) :
    String :=
  match factors, texts with
  | f :: _, first :: _ =>
    let joined := "*".intercalate texts
    let leadsNumber := startsNumber first
    if coefficient == 1 then joined
    else if coefficient == -1 && !leadsNumber && f.exponent.isOne then "-" ++ joined
    else
      let sign := if coefficient == -1 || leadsNumber then "*" else ""
      Scalar.text coefficient ++ sign ++ joined
  | _, _ => Scalar.text coefficient

/-- The text of a fraction from the texts of its sides; a denominator of several parts is put
in brackets. -/
def fractionText (denominator : α) (divisors : List (Factor (Node α))) (above below : String) :
    String :=
  if denominator == 1 && divisors.isEmpty then above
  else
    let composite := 1 < divisors.length || !divisors.isEmpty && !(denominator == 1)
    above ++ "/" ++ bracketed (!composite) below

/-- Whether the node is a sum of several terms. -/
def isLongSum : Node α → Bool
  | .sum (_ :: _ :: _) => true
  | _ => false

/-- The text of `argument!` from its unwrapped operand and the text of it. -/
def factorialText (argument : Node α) (text : String) : String :=
  bracketed (argument.isAtomic && !argument.isNegative) text ++ "!"

/-- The text of `left % right` from its unwrapped operands and their texts. -/
def remainderText (left right : Node α) (leftText rightText : String) : String :=
  bracketed (!left.isLongSum) leftText ++ " % "
    ++ bracketed (right.isAtomic || right.isPower) rightText

theorem size_unwrapped_le (n : Node α) : n.unwrapped.size ≤ n.size := by
  fun_induction unwrapped n with
  | case1 base x _ ih =>
    simp only [size]
    omega
  | case2 => exact Nat.le_refl _
  | case3 => exact Nat.le_refl _

theorem le_sum_of_mem {n : Nat} {ns : List Nat} (h : n ∈ ns) : n ≤ ns.sum := by
  induction ns with
  | nil => cases h
  | cons m ms ih =>
    rw [List.sum_cons]
    rcases List.mem_cons.1 h with rfl | h
    · omega
    · have := ih h
      omega

/-- A real factor is smaller than the product it stands in. -/
theorem size_lt_of_mem_factors {f : Factor (Node α)} {t : Term α (Node α)}
    (h : f ∈ t.realFactors) : (Node.power f).size < (Node.product t).size := by
  have bound := le_sum_of_mem (List.mem_map_of_mem (f := fun f => (Node.power f).size) h)
  rw [Term.realFactors, Term.sum_sizes_real] at bound
  rw [Term.size_product, Term.factorSize]
  omega

/-- A real divisor is smaller than the product it stands in. -/
theorem size_lt_of_mem_divisors {f : Factor (Node α)} {t : Term α (Node α)}
    (h : f ∈ t.realDivisors) : (Node.power f).size < (Node.product t).size := by
  have bound := le_sum_of_mem (List.mem_map_of_mem (f := fun f => (Node.power f).size) h)
  rw [Term.realDivisors, Term.sum_sizes_real] at bound
  rw [Term.size_product, Term.factorSize]
  omega

/-- A term is smaller than the sum it stands in. -/
theorem size_lt_of_mem_terms {t : Term α (Node α)} {ts : List (Term α (Node α))} (h : t ∈ ts) :
    (Node.product t).size < (Node.sum ts).size := by
  have bound : (Node.product t).size ≤ termSizes ts := by
    induction ts with
    | nil => cases h
    | cons u us ih =>
      obtain ⟨n, d, fs, gs⟩ := u
      rw [termSizes]
      rcases List.mem_cons.1 h with rfl | h
      · rw [size]
        omega
      · have := ih h
        omega
  have whole : (Node.sum ts).size = 1 + termSizes ts := by rw [size]
  omega

/-- The expression as text. -/
def toText (n : Node α) : String :=
  match n with
  | .number x => Scalar.text x
  | .constant c negative => signedText negative c.symbol
  | .var v negative => signedText negative v.name
  | .power f =>
    powerText f.base.unwrapped f.base.unwrapped.toText f.exponent.unwrapped
      f.exponent.unwrapped.toText
  | .product t =>
    let above := match _ : t.realFactors with
      | [] => []
      | f :: fs =>
        let first := if t.numerator == 1 && f.base.isOperatorCall && f.isUnit then f.base.toText
          else (Node.power f).toText
        first :: fs.attach.map fun ⟨g, _⟩ => (Node.power g).toText
    let below := t.realDivisors.attach.map fun ⟨f, _⟩ => (Node.power f).toText
    fractionText t.denominator t.realDivisors (productText t.numerator t.realFactors above)
      (productText t.denominator t.realDivisors below)
  | .sum [] => ""
  | .sum (t :: ts) =>
    let rest := ts.attach.map fun ⟨u, _⟩ =>
      if (Node.product u).isNegative then " - " ++ (Node.product u.negate).toText
      else " + " ++ (Node.product u).toText
    (Node.product t).toText ++ String.join rest
  | .unary f x =>
    if f.isOperator then factorialText x.unwrapped x.unwrapped.toText
    else f.name ++ "(" ++ x.toText ++ ")"
  | .binary f x y =>
    if f.isOperator then remainderText x.unwrapped y.unwrapped x.unwrapped.toText y.unwrapped.toText
    else f.name ++ "(" ++ x.toText ++ ", " ++ y.toText ++ ")"
termination_by n.size
decreasing_by
  · have := size_unwrapped_le f.base
    rw [size.eq_def (.power f)]
    dsimp only
    omega
  · have := size_unwrapped_le f.exponent
    rw [size.eq_def (.power f)]
    dsimp only
    omega
  · rename_i present _
    have inside := size_lt_of_mem_factors (present ▸ List.mem_cons_self : f ∈ t.realFactors)
    rw [size.eq_def (.power f)] at inside
    dsimp only at inside
    omega
  · rename_i present _
    exact size_lt_of_mem_factors (present ▸ List.mem_cons_self)
  · rename_i whole inRest
    exact size_lt_of_mem_factors (whole ▸ List.mem_cons_of_mem _ inRest)
  · rename_i present
    exact size_lt_of_mem_divisors present
  · rename_i present _
    have := size_lt_of_mem_terms (List.mem_cons_of_mem t present)
    have := Term.size_negate_le u
    omega
  · rename_i present _
    exact size_lt_of_mem_terms (List.mem_cons_of_mem t present)
  · exact size_lt_of_mem_terms List.mem_cons_self
  · have := size_unwrapped_le x
    rw [size.eq_def (.unary f x)]
    dsimp only
    omega
  · rw [size.eq_def (.unary f x)]
    dsimp only
    omega
  · have := size_unwrapped_le x
    rw [size.eq_def (.binary f x y)]
    dsimp only
    omega
  · have := size_unwrapped_le y
    rw [size.eq_def (.binary f x y)]
    dsimp only
    omega
  · rw [size.eq_def (.binary f x y)]
    dsimp only
    omega
  · rw [size.eq_def (.binary f x y)]
    dsimp only
    omega

/-- What kind of node it is. -/
def kind : Node α → String
  | .number _ => "Number"
  | .constant .. => "Constant"
  | .var .. => "Variable"
  | .power _ => "Factor"
  | .product _ => "Term"
  | .sum _ => "Expression"
  | .unary f _ => if f.isOperator then "Operator" else "Function"
  | .binary f _ _ => if f.isOperator then "Operator" else "Function"

/-- The kind and the quoted text of a node. -/
def inspected (n : Node α) : String := n.kind ++ "(" ++ Text.quoted n.toText ++ ")"

end Node

/-- The text of a term. -/
def Term.toText (t : Term α (Node α)) : String := (Node.product t).toText

/-- The text of a factor. -/
def Factor.toText (f : Factor (Node α)) : String := (Node.power f).toText

end SymbolicAlgebra
