/-
  Outlines
  ========
  The structure of an expression as a tree of labels: a node, its parts below it,
  and headings for the coefficient, the divisors and the exponent. A label has a
  heading in some style and may go on in plain text; it is written with the style
  marked up or without it.
-/
import SymbolicAlgebra.Node.Printer

namespace SymbolicAlgebra

/-- How a heading is set off. -/
inductive Style where
  | bold
  | red
  | green
  | yellow
  | blue
  | magenta
  | cyan
deriving DecidableEq, Repr

/-- The word for a style. -/
def Style.name : Style → String
  | .bold => "bold"
  | .red => "red"
  | .green => "green"
  | .yellow => "yellow"
  | .blue => "blue"
  | .magenta => "magenta"
  | .cyan => "cyan"

/-- A heading and the text behind it. -/
structure Label where
  style : Style
  heading : String
  detail : Option String
deriving DecidableEq, Repr

namespace Label

/-- The text that follows the heading, with a blank between them. -/
def tail (l : Label) : String := (l.detail.map (" " ++ ·)).getD ""

/-- The label without its style. -/
def plain (l : Label) : String := l.heading ++ l.tail

/-- The label with its style marked up around the heading. -/
def marked (l : Label) : String :=
  "[" ++ l.style.name ++ "]" ++ l.heading ++ "[/" ++ l.style.name ++ "]" ++ l.tail

end Label

/-- A tree of labels. -/
inductive Outline where
  | branch (label : Label) (children : List Outline)
deriving Repr

/-- A label without anything below it. -/
def Outline.leaf (label : Label) : Outline := .branch label []

variable {α : Type} [Scalar α]

namespace Node

/-- The style in which the kind of a node is set. -/
def style : Node α → Style
  | .number _ => .green
  | .constant .. => .magenta
  | .var .. => .cyan
  | .unary .. | .binary .. => .yellow
  | _ => .bold

/-- The label of a node: its kind and its text, for a call the name of the function. -/
def label (n : Node α) : Label :=
  let detail := match n with
    | .unary f _ => f.name
    | .binary f _ _ => f.name
    | n => n.toText
  ⟨n.style, n.kind, some detail⟩

/-- The heading of a coefficient, if it is not one. -/
def coefficientOutline (numerator denominator : α) : List Outline :=
  if numerator == 1 && denominator == 1 then []
  else [.leaf ⟨.green, "coefficient", some (Term.normal numerator denominator [] []).toText⟩]

/-- The heading of some divisors, if there are any. -/
def divisorOutline (divisors : List Outline) : List Outline :=
  if divisors.isEmpty then [] else [.branch ⟨.red, "over", none⟩ divisors]

mutual

/-- The outline of an expression. -/
def outline : Node α → Outline
  | .power ⟨base, exponent⟩ =>
    .branch (Node.power ⟨base, exponent⟩).label
      [base.outline, .branch ⟨.blue, "exponent", none⟩ [exponent.outline]]
  | .product ⟨n, d, fs, gs⟩ =>
    .branch (Node.product ⟨n, d, fs, gs⟩).label
      (coefficientOutline n d ++ factorOutlines fs ++ divisorOutline (factorOutlines gs))
  | .sum ts => .branch (Node.sum ts).label (termOutlines ts)
  | .unary f x => .branch (Node.unary f x).label [x.outline]
  | .binary f x y => .branch (Node.binary f x y).label [x.outline, y.outline]
  | n => .leaf n.label

/-- The outlines of the real factors. -/
def factorOutlines : List (Factor (Node α)) → List Outline
  | [] => []
  | ⟨base, exponent⟩ :: fs =>
    if exponent.isZero || base.isOne then factorOutlines fs
    else
      .branch (Node.power ⟨base, exponent⟩).label
        [base.outline, .branch ⟨.blue, "exponent", none⟩ [exponent.outline]] :: factorOutlines fs

/-- The outlines of the terms. -/
def termOutlines : List (Term α (Node α)) → List Outline
  | [] => []
  | ⟨n, d, fs, gs⟩ :: ts =>
    .branch (Node.product ⟨n, d, fs, gs⟩).label
      (coefficientOutline n d ++ factorOutlines fs ++ divisorOutline (factorOutlines gs))
      :: termOutlines ts

end

end Node

end SymbolicAlgebra
