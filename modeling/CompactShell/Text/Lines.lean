/-!
# Lines

A command is cut at its newlines alone. A stored file is read with every style of line end turned
into a newline first; a log is then cut at every character that Unicode counts as a line break,
wherever it stands.
-/

namespace CompactShell.Text

/-- The pieces of a text between its newlines. There is one more piece than there are newlines. -/
def splitLines (text : List Char) : List (List Char) :=
  text.splitOn '\n'

/-- The lines with a newline between each two. -/
def joinLines (lines : List (List Char)) : List Char :=
  ['\n'].intercalate lines

/-- Carriage returns, with or without a newline behind them, become newlines. -/
def unifyNewlines : List Char → List Char
  | [] => []
  | '\r' :: '\n' :: rest => '\n' :: unifyNewlines rest
  | c :: rest => (if c = '\r' then '\n' else c) :: unifyNewlines rest

/-- A character that ends a line of a log. -/
def isLineBreak (c : Char) : Bool :=
  (0x0A ≤ c.toNat && c.toNat ≤ 0x0D) || (0x1C ≤ c.toNat && c.toNat ≤ 0x1E) ||
    c.toNat == 0x85 || c.toNat == 0x2028 || c.toNat == 0x2029

/-- The pieces of a text between its line breaks. -/
def splitAtBreaks (text : List Char) : List (List Char) :=
  text.splitOnP isLineBreak

/-- Cutting at newlines and joining again gives the text back. -/
@[simp] theorem joinLines_splitLines (text : List Char) : joinLines (splitLines text) = text :=
  List.intercalate_splitOn '\n'

/-- Lines without newlines are what cutting their join gives. -/
theorem splitLines_joinLines {lines : List (List Char)} (h : ∀ line ∈ lines, '\n' ∉ line)
    (ne : lines ≠ []) : splitLines (joinLines lines) = lines :=
  List.splitOn_intercalate '\n' h ne

end CompactShell.Text
