import CompactShell.Text.Lines

/-!
# Logical lines

A line that ends in a backslash goes on in the next one. The newline between them stays in the
logical line, so that joining the logical lines gives the lines back as they were.
-/

namespace CompactShell.Shell

open Text

/-- The line goes on in the next one. -/
def isContinued (line : List Char) : Bool :=
  line.getLast? == some '\\'

/-- The lines put together where one goes on in the next. -/
def logicalLines : List (List Char) → List (List Char)
  | [] => []
  | line :: rest =>
    match isContinued line, logicalLines rest with
    | true, next :: lines => (line ++ '\n' :: next) :: lines
    | _, lines => line :: lines

end CompactShell.Shell
