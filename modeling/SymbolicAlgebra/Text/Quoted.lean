/-
  Quoted text
  ===========
  Text as a message shows it: between quotes, with everything escaped that would
  not be seen. The quotes are single ones, except around a text that holds single
  quotes and no double ones.
-/
import SymbolicAlgebra.Text.Printable

namespace SymbolicAlgebra.Text

/-- The number in lower-case hexadecimal, with zeros in front up to the given width. -/
def hexadecimal (width n : Nat) : List Char :=
  let digits := Nat.toDigits 16 n
  List.replicate (width - digits.length) '0' ++ digits

/-- The quote around a text: single, unless that would need escapes and a double one would not. -/
def quoteMark (cs : List Char) : Char :=
  if cs.contains '\x27' && !cs.contains '\x22' then '\x22' else '\x27'

/-- One character between quotes. Unprintable ones are written by their code point, in the
shortest of the three lengths that holds it. -/
def escapedChar (quote c : Char) : List Char :=
  if c = '\\' || c = quote then ['\\', c]
  else if c = '\n' then ['\\', 'n']
  else if c = '\t' then ['\\', 't']
  else if c = '\r' then ['\\', 'r']
  else if isPrintable c then [c]
  else if c.toNat < 0x100 then '\\' :: 'x' :: hexadecimal 2 c.toNat
  else if c.toNat < 0x10000 then '\\' :: 'u' :: hexadecimal 4 c.toNat
  else '\\' :: 'U' :: hexadecimal 8 c.toNat

/-- The text between quotes, as messages show it. -/
def quoted (text : String) : String :=
  let quote := quoteMark text.toList
  String.ofList (quote :: text.toList.flatMap (escapedChar quote) ++ [quote])

example : quoted "it\x27s" = "\x22it\x27s\x22" := by decide +kernel
example : quoted "a\n" = "\x27a\\n\x27" := by decide +kernel

end SymbolicAlgebra.Text
