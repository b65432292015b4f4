/-
  Tokens
  ======
  Cutting the text of an expression into tokens. The text is first made compact:
  blanks vanish and two minus signs in a row become a plus sign. A run of digits and
  points is one token, a run of letters is cut into a function name, constants and
  variables, and every other character stands alone.

  Two things that an expression leaves unsaid are made explicit: a marker between
  two operands that stand side by side, and a marker in place of a minus sign where
  an operand is expected.
-/
import SymbolicAlgebra.Infix.Symbol

namespace SymbolicAlgebra.Token

open SymbolicAlgebra.Text

/-- A piece of the text. -/
abbrev Piece := List Char

/-- Whether the character is part of a numeral. -/
def isNumeralChar (c : Char) : Bool := isDigit c || c == '.'

/-- Whether the character is part of an identifier. -/
def isIdentifierChar (c : Char) : Bool := isAlphanumeric c || c == '_'

/-- The text with every pair of minus signs, from the left, replaced by a plus sign. -/
def collapseMinus : List Char → List Char
  | '-' :: '-' :: rest => '+' :: collapseMinus rest
  | c :: rest => c :: collapseMinus rest
  | [] => []

/-! ### Identifiers -/

/-- The first constant, variable or number of a run of identifier characters, and the rest. -/
def takePiece? : List Char → Option (Piece × List Char)
  | 'p' :: 'i' :: rest => some (['p', 'i'], rest)
  | 'π' :: rest => some (['π'], rest)
  | c :: rest =>
    if c.isAlpha then
      match rest with
      | '_' :: subscript =>
        let digits := subscript.takeWhile isDecimal
        if digits.isEmpty then some ([c], rest)
        else some (c :: '_' :: digits, subscript.dropWhile isDecimal)
      | _ => some ([c], rest)
    else if isDecimal c then some (c :: rest.takeWhile isDecimal, rest.dropWhile isDecimal)
    else none
  | [] => none

theorem length_dropWhile_le {β : Type} (p : β → Bool) (xs : List β) :
    (xs.dropWhile p).length ≤ xs.length := by
  induction xs with
  | nil => simp
  | cons x xs ih =>
    rw [List.dropWhile_cons]
    split
    · exact Nat.le_succ_of_le ih
    · exact Nat.le_refl _

theorem takePiece?_shorter {cs : List Char} {piece : Piece} {rest : List Char}
    (h : takePiece? cs = some (piece, rest)) : rest.length < cs.length := by
  unfold takePiece? at h
  split at h
  · simp only [Option.some.injEq, Prod.mk.injEq] at h
    simp only [← h.2, List.length_cons]
    omega
  · simp only [Option.some.injEq, Prod.mk.injEq] at h
    simp [← h.2]
  · split at h
    · split at h
      · dsimp only at h
        split at h
        · simp only [Option.some.injEq, Prod.mk.injEq] at h
          simp [← h.2]
        · simp only [Option.some.injEq, Prod.mk.injEq] at h
          rename_i subscript _ _
          have := length_dropWhile_le isDecimal subscript
          simp only [← h.2, List.length_cons]
          omega
      · simp only [Option.some.injEq, Prod.mk.injEq] at h
        simp [← h.2]
    · split at h
      · simp only [Option.some.injEq, Prod.mk.injEq] at h
        rename_i _ tail _ _ _ _
        have := length_dropWhile_le isDecimal tail
        simp only [← h.2, List.length_cons]
        omega
      · simp at h
  · simp at h

/-- Cuts a run into constants, variables and numbers; none if some character fits nowhere. -/
def pieces? (cs : List Char) : Option (List Piece) :=
  if cs.isEmpty then some []
  else
    match _found : takePiece? cs with
    | none => none
    | some (piece, rest) => (pieces? rest).map (piece :: ·)
termination_by cs.length
decreasing_by exact takePiece?_shorter _found

/-- The longest function name at the end of a run. -/
def functionSuffix? (run : List Char) : Option Piece :=
  let names := (Function.registered.map fun f => f.name.toList).filter (·.isSuffixOf run)
  names.foldl (fun best name =>
    match best with
    | some b => if b.length < name.length then some name else best
    | none => some name) none

/-- Cuts a run of identifier characters. A function name counts only in front of a bracket. -/
def cutIdentifier (run : List Char) (beforeBracket : Bool) : Except ParseError (List Piece) :=
  let text := String.ofList run
  if (beforeBracket && (Function.ofName? text).isSome) || (Constant.ofSymbol? text).isSome
      || isVariableName text then
    .ok [run]
  else
    let name := if beforeBracket then (functionSuffix? run).getD [] else []
    let front := run.take (run.length - name.length)
    match pieces? front with
    | none => .error (.unknownIdentifier (String.ofList front))
    | some pieces => .ok (if name.isEmpty then pieces else pieces ++ [name])

/-! ### The whole text -/

/-- Cuts the rest of a compact text that starts at the given position. -/
def cut (table : BracketTable) (text : String) (position : Nat) (cs : List Char) :
    Except ParseError (List Piece) :=
  match cs with
  | [] => .ok []
  | c :: rest =>
    if isNumeralChar c then do
      let run := rest.takeWhile isNumeralChar
      let pieces ← cut table text (position + 1 + run.length) (rest.dropWhile isNumeralChar)
      return (c :: run) :: pieces
    else if isLetter c || c == '_' then do
      let run := rest.takeWhile isIdentifierChar
      let after := rest.dropWhile isIdentifierChar
      let beforeBracket := match after with
        | next :: _ => table.openers.contains next
        | [] => false
      let front ← cutIdentifier (c :: run) beforeBracket
      let pieces ← cut table text (position + 1 + run.length) after
      return front ++ pieces
    else if Symbol.operatorSigns.contains c || table.contains c || c == Symbol.separator then do
      let pieces ← cut table text (position + 1) rest
      return [c] :: pieces
    else .error (.unexpectedCharacter c position text)
termination_by cs.length
decreasing_by
  · have := length_dropWhile_le isNumeralChar rest
    simp only [List.length_cons]
    omega
  · have := length_dropWhile_le isIdentifierChar rest
    simp only [List.length_cons]
    omega
  · simp

/-! ### Markers -/

/-- Whether the piece is one of the characters. -/
def isOneOf (chars : List Char) (piece : Piece) : Bool :=
  match piece with
  | [c] => chars.contains c
  | _ => false

/-- Whether the piece is an operator with an operand on either side. -/
def isBinarySign (piece : Piece) : Bool := isOneOf Symbol.binarySigns piece

/-- Whether the piece is the negation marker. -/
def isNegationMark (piece : Piece) : Bool := piece == [Symbol.negationMark]

/-- Whether the piece is the argument separator. -/
def isSeparator (piece : Piece) : Bool := piece == [Symbol.separator]

/-- Whether an operand can end with the piece. -/
def endsOperand (table : BracketTable) (piece : Piece) : Bool :=
  if isOneOf table.closers piece || piece == ['!'] then true
  else
    match piece with
    | c :: _ =>
      isNumeralChar c || isLetter c && (Function.ofName? (String.ofList piece)).isNone
    | [] => false

/-- Whether an operand can start with the piece. -/
def startsOperand (table : BracketTable) (piece : Piece) : Bool :=
  isOneOf table.openers piece ||
    match piece with
    | c :: _ => isNumeralChar c || isLetter c
    | [] => false

/-- Whether an operand has to follow the piece, or the start of the text. -/
def expectsOperand (table : BracketTable) (previous : Option Piece) : Bool :=
  match previous with
  | none => true
  | some piece =>
    isBinarySign piece || isNegationMark piece || isOneOf table.openers piece || isSeparator piece

/-- Whether a plus sign that follows the piece, or the start of the text, says nothing. -/
def dropsPlus (table : BracketTable) (previous : Option Piece) : Bool :=
  match previous with
  | none => true
  | some piece => isOneOf table.openers piece || isSeparator piece

/-- The pieces with markers between them, given the piece that was written last. -/
def marked (table : BracketTable) (previous : Option Piece) :
    List Piece → Except ParseError (List Piece)
  | [] =>
    match previous with
    | some piece =>
      if isBinarySign piece || isNegationMark piece then
        .error (.trailingOperator (String.ofList piece))
      else .ok []
    | none => .ok []
  | piece :: rest =>
    if expectsOperand table previous then
      if piece = ['-'] then do
        return [Symbol.negationMark] :: (← marked table (some [Symbol.negationMark]) rest)
      else if piece = ['+'] ∧ dropsPlus table previous then marked table previous rest
      else if isBinarySign piece || piece == ['!'] then
        .error (.unexpectedOperator (String.ofList piece) (previous.map String.ofList))
      else if isOneOf table.closers piece || isSeparator piece then
        .error (.missingOperand (String.ofList piece))
      else do return piece :: (← marked table (some piece) rest)
    else if (previous.map (endsOperand table)).getD false && startsOperand table piece then do
      return [Symbol.multiplicationMark] :: piece :: (← marked table (some piece) rest)
    else do return piece :: (← marked table (some piece) rest)

/-- The tokens of a text without blanks. -/
def ofCompact (table : BracketTable) (cs : List Char) : Except ParseError (List Piece) := do
  marked table none (← cut table (String.ofList cs) 0 cs)

/-- The tokens of a text. -/
def tokenize (table : BracketTable) (text : String) : Except ParseError (List String) := do
  return (← ofCompact table (collapseMinus (compact text.toList))).map String.ofList

end SymbolicAlgebra.Token
