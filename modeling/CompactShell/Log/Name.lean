import CompactShell.Text.Space

/-!
# Names of logs

Each session has a log of its own. Its name keeps the characters of the session's identifier that
are safe in a file name, with an underscore for each run of others. It starts with a letter or a
digit and has at most 128 characters. An identifier without a letter or a digit names no log.
-/

namespace CompactShell.Log

open Text

/-- A character that may stand in the name of a log. -/
def isSafe (c : Char) : Bool :=
  c.isAlphanum || c = '_' || c = '.' || c = '-'

/-- A character that a name is trimmed of at its ends. -/
def isPunctuation (c : Char) : Bool :=
  c = '.' || c = '_' || c = '-'

/-- The text with an underscore for each run of unsafe characters; `inRun` tells whether one is
going on. -/
def replaceUnsafe (inRun : Bool) : List Char → List Char
  | [] => []
  | c :: rest =>
    if isSafe c then c :: replaceUnsafe false rest
    else if inRun then replaceUnsafe true rest
    else '_' :: replaceUnsafe true rest

def trimPunctuation (text : List Char) : List Char :=
  ((text.dropWhile isPunctuation).reverse.dropWhile isPunctuation).reverse

/-- The longest name that a log may have. -/
def maxLength : Nat := 128

/-- The name of a session's log, without the file name's extension. -/
def name? (session : List Char) : Option (List Char) :=
  let name := (trimPunctuation (replaceUnsafe false (trim session))).take maxLength
  if name.isEmpty then none else some name

def extension : List Char := ".jsonl".toList

def fileName? (session : List Char) : Option (List Char) :=
  (name? session).map (· ++ extension)

end CompactShell.Log
