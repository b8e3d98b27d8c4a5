import CompactShell.Text.Class

/-!
# White space

Two notions of white space meet in a command. The shell separates words at *blanks*, the space
and the tab. Everything else in this library that trims or looks for a gap uses the wider Unicode
class, which also holds the four information separators U+001C to U+001F.
-/

namespace CompactShell.Text

/-- The characters of the Unicode class of white space. -/
def spaceTable : List (Nat × Nat) :=
  [(0x9, 0xD), (0x1C, 0x20), (0x85, 0x85), (0xA0, 0xA0), (0x1680, 0x1680), (0x2000, 0x200A),
   (0x2028, 0x2029), (0x202F, 0x202F), (0x205F, 0x205F), (0x3000, 0x3000)]

/-- White space in the Unicode sense. -/
def isSpace (c : Char) : Bool :=
  covers spaceTable c

/-- A blank of the shell: a space or a tab. -/
def isBlank (c : Char) : Bool :=
  c = ' ' || c = '\t'

def trimStart (text : List Char) : List Char :=
  text.dropWhile isSpace

def trimEnd (text : List Char) : List Char :=
  (text.reverse.dropWhile isSpace).reverse

def trim (text : List Char) : List Char :=
  trimEnd (trimStart text)

/-- Nothing but white space, or nothing at all. -/
def isWhite (text : List Char) : Bool :=
  text.all isSpace

/-- The text goes on with white space. -/
def startsWithSpace : List Char → Bool
  | [] => false
  | c :: _ => isSpace c

theorem isSpace_of_isBlank {c : Char} (h : isBlank c = true) : isSpace c = true := by
  simp only [isBlank, Bool.or_eq_true, decide_eq_true_eq] at h
  rcases h with rfl | rfl <;> decide

end CompactShell.Text
