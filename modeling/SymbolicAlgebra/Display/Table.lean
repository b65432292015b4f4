/-
  Tables
  ======
  A titled table in a frame: every column is as wide as its longest cell, with one
  blank on either side; the head is set off by heavy lines. The title is centred
  above the table and cut into lines of its width.
-/
import SymbolicAlgebra.Display.Alignment

namespace SymbolicAlgebra.Display

-- a sum of whole numbers starts from their own zero, whatever else has one
attribute [local instance (1100)] Zero.ofOfNat0

/-- A column: its head and the side its cells keep to. -/
structure Column where
  head : String
  alignment : Alignment
deriving DecidableEq, Repr

/-- A table; each row has one cell for every column. -/
structure Table where
  title : String
  columns : List Column
  rows : List (List String)
deriving DecidableEq, Repr

namespace Table

/-- The characters of a frame line: its ends, its stroke and its crossings. -/
structure Stroke where
  left : String
  line : Char
  crossing : String
  right : String

/-- The line above the head. -/
def Stroke.top : Stroke := ⟨"┏", '━', "┳", "┓"⟩

/-- The line below the head. -/
def Stroke.middle : Stroke := ⟨"┡", '━', "╇", "┩"⟩

/-- The line below the last row. -/
def Stroke.bottom : Stroke := ⟨"└", '─', "┴", "┘"⟩

/-- How wide the cells of each column are, without their blanks. -/
def widths (t : Table) : List Nat :=
  t.rows.foldl (fun widths row => widths.zipWith (fun w cell => max w cell.length) row)
    (t.columns.map fun c => c.head.length)

/-- A frame line over columns of the given widths. -/
def frameLine (s : Stroke) (widths : List Nat) : String :=
  s.left ++ s.crossing.intercalate (widths.map fun w => rule s.line (w + 2)) ++ s.right

/-- A line of cells between bars. -/
def cellLine (bar : String) (alignments : List Alignment) (widths : List Nat)
    (cells : List String) : String :=
  let filled := (alignments.zip (widths.zip cells)).map fun (a, w, cell) =>
    " " ++ a.fill w cell ++ " "
  bar ++ bar.intercalate filled ++ bar

/-- The width of the whole table. -/
def width (widths : List Nat) : Nat := 1 + (widths.map (· + 3)).sum

/-- The lines of the table. -/
def lines (t : Table) : List String :=
  let widths := t.widths
  let alignments := t.columns.map (·.alignment)
  (wrapped (width widths) t.title).map (Alignment.centre.fill (width widths))
    ++ [frameLine .top widths, cellLine "┃" alignments widths (t.columns.map (·.head)),
      frameLine .middle widths]
    ++ t.rows.map (cellLine "│" alignments widths)
    ++ [frameLine .bottom widths]

end Table

end SymbolicAlgebra.Display
