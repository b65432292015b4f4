/-
  Panels
  ======
  An outline drawn with guides from each label to the labels below it, and lines set
  in a frame of a fixed width with a title in its upper edge.
-/
import SymbolicAlgebra.Display.Alignment
import SymbolicAlgebra.Outline

namespace SymbolicAlgebra

namespace Outline

/-- Lines below a label: the first one behind a branch, the others behind what leads past it. -/
def guided (branch passing : String) : List String → List String
  | [] => []
  | first :: rest => (branch ++ first) :: rest.map (passing ++ ·)

mutual

/-- The lines of an outline. -/
def lines : Outline → List String
  | .branch label children => label.plain :: childLines children

/-- The lines of the outlines below one label. -/
def childLines : List Outline → List String
  | [] => []
  | [last] => guided "└── " "    " last.lines
  | child :: rest => guided "├── " "│   " child.lines ++ childLines rest

end

end Outline

namespace Display

/-- How wide a terminal is. -/
def terminalWidth : Nat := 120

/-- Lines in a frame as wide as the terminal. -/
def panel (title : String) (lines : List String) : List String :=
  let inner := terminalWidth - 2
  let heading := " " ++ title ++ " "
  let room := inner - heading.length
  ("╭" ++ rule '─' (room / 2) ++ heading ++ rule '─' (room - room / 2) ++ "╮")
    :: lines.map (fun line => "│ " ++ Alignment.left.fill (inner - 2) line ++ " │")
    ++ ["╰" ++ rule '─' inner ++ "╯"]

end Display

end SymbolicAlgebra
