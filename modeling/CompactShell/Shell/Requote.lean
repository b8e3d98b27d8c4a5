/-!
# Quoting a text as one word

A text of harmless characters is a word as it stands. Any other text goes between single quotes,
with each single quote of its own written between double quotes.
-/

namespace CompactShell.Shell

/-- A character that means nothing to a shell. -/
def isHarmless (c : Char) : Bool :=
  c.isAlphanum || c ∈ ['_', '@', '%', '+', '=', ':', ',', '.', '/', '-']

/-- How one character is written between single quotes. -/
def inSingleQuotes (c : Char) : List Char :=
  if c = '\'' then ['\'', '"', '\'', '"', '\''] else [c]

/-- The text as one word of a command. -/
def requote (text : List Char) : List Char :=
  if !text.isEmpty && text.all isHarmless then text
  else '\'' :: text.flatMap inSingleQuotes ++ ['\'']

end CompactShell.Shell
