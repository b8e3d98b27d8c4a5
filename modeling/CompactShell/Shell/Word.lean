import CompactShell.Shell.Quoting
import CompactShell.Text.Space

/-!
# Words

A command is a sequence of words between unquoted blanks. A word is kept in two forms: `raw` as it
was typed, and `value` without the quotes that delimit; escapes stay as they are in both. A
backslash in front of a newline, outside quotes, separates words like a blank.

The reader of words is a scanner of its own: it takes a backslash and the character behind it in one
step.
-/

namespace CompactShell.Shell

open Text

structure Word where
  /-- The word as it was typed. -/
  raw : List Char
  /-- The word without its quotes. -/
  value : List Char
  deriving DecidableEq, Repr

/-- A possible word in front of others: nothing typed is no word. -/
def flush (piece : Word) (words : List Word) : List Word :=
  if piece.raw.isEmpty then words else piece :: words

/-- The words of a text, with the quotes that are open and what has been read of a word, the last
character first. A backslash is read together with what it escapes. -/
def wordsFrom (quoting : Quoting) (raw value : List Char) : List Char → List Word
  | [] => flush ⟨raw.reverse, value.reverse⟩ []
  | c :: rest =>
    match decide (c = '\\') && quoting != .single, rest with
    | true, [] => flush ⟨(c :: raw).reverse, (c :: value).reverse⟩ []
    | true, d :: rest =>
      if d = '\n' && quoting != .double then
        flush ⟨raw.reverse, value.reverse⟩ (wordsFrom quoting [] [] rest)
      else wordsFrom quoting (d :: c :: raw) (d :: c :: value) rest
    | false, rest =>
      if c = '\'' && quoting != .double then
        wordsFrom (if quoting = .single then .bare else .single) (c :: raw) value rest
      else if c = '"' && quoting != .single then
        wordsFrom (if quoting = .double then .bare else .double) (c :: raw) value rest
      else if isBlank c && quoting == .bare then
        flush ⟨raw.reverse, value.reverse⟩ (wordsFrom quoting [] [] rest)
      else wordsFrom quoting (c :: raw) (c :: value) rest

def words (command : List Char) : List Word :=
  wordsFrom .bare [] [] command

/-- The words of a command without their quotes. -/
def values (command : List Char) : List (List Char) :=
  (words command).map Word.value

/-- Texts with a single space between each two. -/
def joinBlank (texts : List (List Char)) : List Char :=
  [' '].intercalate texts

end CompactShell.Shell
