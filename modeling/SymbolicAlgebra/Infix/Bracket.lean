/-
  Bracket tables
  ==============
  A table lists bracket pairs as consecutive characters: an opener, its closer, the
  next opener, and so on. The functions here ask a table for positions; they answer
  for any list of characters, also for one that lists a character twice or lacks its
  last closer.
-/
namespace SymbolicAlgebra

/-- Bracket pairs as consecutive characters. -/
abbrev BracketTable := List Char

namespace BracketTable

/-- The characters at even positions. -/
def openers : BracketTable → List Char
  | [] => []
  | [c] => [c]
  | c :: _ :: rest => c :: openers rest

/-- The characters at odd positions. -/
def closers (table : BracketTable) : List Char := openers (table.drop 1)

/-- Where a text first occurs in the table. -/
def position? (table : BracketTable) (text : List Char) : Option Nat :=
  (List.range (table.length + 1)).find? fun i => text.isPrefixOf (table.drop i)

/-- Whether the text is one character whose first position in the table has the parity. -/
def standsAt (table : BracketTable) (parity : Nat) (text : List Char) : Bool :=
  match text, table.position? text with
  | [_], some i => i % 2 == parity
  | _, _ => false

/-- The character behind the first occurrence of a text, the first one of the table for a text
that does not occur. -/
def follower? (table : BracketTable) (text : List Char) : Option Char :=
  match table.position? text with
  | some i => table[i + 1]?
  | none => table[0]?

/-- The table of round brackets. -/
def round : BracketTable := ['(', ')']

end BracketTable

end SymbolicAlgebra
