import CompactShell.Text.Hex
import CompactShell.Text.Printable

/-!
# Texts in quotes

A text that stands inside a report or a message is shown between single quotes, or between double
quotes when it holds a single quote and no double one. Characters that cannot be shown are
escaped with the fewest hexadecimal digits that their size allows: two, four or eight.
-/

namespace CompactShell.Text.Quoted

/-- The quote character that a text is shown between. -/
def quoteFor (text : List Char) : Char :=
  if '\'' ∈ text ∧ '"' ∉ text then '"' else '\''

/-- How one character is shown between the given quotes. -/
def escape (quote c : Char) : List Char :=
  if c = quote ∨ c = '\\' then ['\\', c]
  else if c = '\t' then ['\\', 't']
  else if c = '\n' then ['\\', 'n']
  else if c = '\r' then ['\\', 'r']
  else if isPrintable c then [c]
  else if c.toNat < 0x100 then '\\' :: 'x' :: hexDigits 2 c.toNat
  else if c.toNat < 0x10000 then '\\' :: 'u' :: hexDigits 4 c.toNat
  else '\\' :: 'U' :: hexDigits 8 c.toNat

def display (text : List Char) : List Char :=
  let quote := quoteFor text
  quote :: text.flatMap (escape quote) ++ [quote]

end CompactShell.Text.Quoted
