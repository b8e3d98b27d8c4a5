import CompactShell.Shell.Operator
import CompactShell.Shell.Word
import CompactShell.Text.Choice
import CompactShell.Text.Digit

/-!
# Reading the start of a file

`head` with a count of lines becomes a read of the same file with a limit. The count is written
`-N` or `--lines=N` right behind the program's name; the file is the rest of the line.
-/

namespace CompactShell.Search

open Shell Text

/-- The count of lines that a `head` command starts with, and the rest behind its digits. The rest
starts with white space. -/
def headCount? (command : List Char) : Option (List Char × List Char) :=
  if startsWith "head" command && startsWithSpace (command.drop 4) then
    let option := trimStart (command.drop 4)
    let lead := if startsWith "--lines=" option then 8 else if startsWith "-" option then 1 else 0
    let count := (option.drop lead).takeWhile isDecimal
    let rest := (option.drop lead).dropWhile isDecimal
    if lead != 0 && !count.isEmpty && startsWithSpace rest then some (count, rest) else none
  else none

/-- A line that is all there is, but for a newline at its end. -/
def wholeLine? (text : List Char) : Option (List Char) :=
  let line := text.takeWhile (· != '\n')
  let rest := text.dropWhile (· != '\n')
  if !line.isEmpty && (rest.isEmpty || rest == ['\n']) then some line else none

/-- The file behind the white space that the text starts with. White space is taken for a part of
the file's name only where nothing else is left. -/
def headTarget? : List Char → Option (List Char)
  | [] => none
  | c :: rest => if isSpace c then headTarget? rest <|> wholeLine? rest else none

/-- The compact form of a `head` command, with the rest of the line behind its first operator. -/
def translateHead? (body : List Char) : Option (List Char) :=
  let (command, tail) := splitAtOperator body
  (headCount? command).bind fun (count, rest) =>
    (headTarget? rest).map fun target =>
      joinBlank ["rtk".toList, "read".toList, target, "--max-lines".toList, count] ++ tail

end CompactShell.Search
