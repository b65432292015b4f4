/-
  Blank characters
  ================
  White space of every script and the control characters that separate text.
  Blanks never carry meaning in an expression: **`not_isBlank_of_mem_compact`**
  says that compacting a text leaves none, and nothing else is lost
  (`compact_eq_self`).
-/
import SymbolicAlgebra.Text.Ranges

namespace SymbolicAlgebra.Text

/-- The blank characters. -/
def blanks : Ranges := [
    (0x9, 0xD), (0x1C, 0x20), (0x85, 0x85), (0xA0, 0xA0), (0x1680, 0x1680), (0x2000, 0x200A),
    (0x2028, 0x2029), (0x202F, 0x202F), (0x205F, 0x205F), (0x3000, 0x3000)]

/-- Whether the character is blank. -/
def isBlank (c : Char) : Bool := blanks.contains c

/-- The text without its blanks. -/
def compact (cs : List Char) : List Char := cs.filter fun c => !isBlank c

/-- The text without what passes the test at its two ends. -/
def trimWhere (test : Char → Bool) (cs : List Char) : List Char :=
  ((cs.dropWhile test).reverse.dropWhile test).reverse

/-- The text without the blanks at its two ends. -/
def trim (cs : List Char) : List Char := trimWhere isBlank cs

/-- Whether the character is one of the four control characters that separate records. -/
def isRecordSeparator (c : Char) : Bool := decide ('\x1c' ≤ c) && decide (c ≤ '\x1f')

/-- Whether the character may stand around a numeral: a blank that separates no records. -/
def isMargin (c : Char) : Bool := isBlank c && !isRecordSeparator c

theorem not_isBlank_of_mem_compact {c : Char} {cs : List Char} (h : c ∈ compact cs) :
    isBlank c = false := by
  simpa using (List.mem_filter.1 h).2

theorem compact_eq_self {cs : List Char} (h : ∀ c ∈ cs, isBlank c = false) : compact cs = cs :=
  List.filter_eq_self.2 fun c hc => by simp [h c hc]

end SymbolicAlgebra.Text
