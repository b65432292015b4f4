/-
  Aligned text
  ============
  Lines of a fixed width: text padded on either side, centred text, and text cut
  into lines between its words. Every character counts as one cell.

  **`length_fill`**: a text that fits is filled to the width exactly;
  **`flatten_fillLines`**: cutting into lines loses no word and keeps their order.
-/
namespace SymbolicAlgebra.Display

-- a sum of whole numbers starts from their own zero, whatever else has one
attribute [local instance (1100)] Zero.ofOfNat0

/-- A run of blanks. -/
def blanks (n : Nat) : String := String.ofList (List.replicate n ' ')

/-- A run of one character. -/
def rule (c : Char) (n : Nat) : String := String.ofList (List.replicate n c)

/-- Where a text stands in a wider cell. -/
inductive Alignment where
  | left
  | right
  | centre
deriving DecidableEq, Repr

/-- The text with blanks up to the width; of the blanks around a centred text the odd one
follows it. -/
def Alignment.fill (a : Alignment) (width : Nat) (text : String) : String :=
  let room := width - text.length
  match a with
  | .left => text ++ blanks room
  | .right => blanks room ++ text
  | .centre => blanks (room / 2) ++ text ++ blanks (room - room / 2)

theorem length_blanks (n : Nat) : (blanks n).length = n := by
  simp [blanks, String.length_ofList]

theorem length_fill (a : Alignment) {width : Nat} {text : String} (fits : text.length ≤ width) :
    (a.fill width text).length = width := by
  cases a <;> simp only [Alignment.fill, String.length_append, length_blanks] <;> omega

/-- Cuts words into lines: a word that does not fit behind the line so far starts the next. -/
def fillLines (width : Nat) (line : List String) : List String → List (List String)
  | [] => if line.isEmpty then [] else [line]
  | word :: words =>
    let taken := (line.map fun w => w.length + 1).sum
    if line.isEmpty || taken + word.length ≤ width then fillLines width (line ++ [word]) words
    else line :: fillLines width [word] words

/-- The lines of a text of words with single blanks between them. -/
def wrapped (width : Nat) (text : String) : List String :=
  (fillLines width [] (text.splitOn " ")).map (" ".intercalate ·)

theorem flatten_fillLines (width : Nat) (line words : List String) :
    (fillLines width line words).flatten = line ++ words := by
  induction words generalizing line with
  | nil =>
    rw [fillLines]
    split <;> simp_all
  | cons word words ih =>
    rw [fillLines]
    split
    · rw [ih]
      simp
    · rw [List.flatten_cons, ih]
      simp

end SymbolicAlgebra.Display
