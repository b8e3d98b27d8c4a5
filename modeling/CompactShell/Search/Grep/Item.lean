import CompactShell.Shell.Requote
import CompactShell.Shell.Word
import CompactShell.Text.Choice
import CompactShell.Text.Letter

/-!
# The parts of a search

The words behind `grep` or `rg` are read into the parts that a search of file contents has: a
pattern, the positional words and the options to pass on. `Reading` says what a word is by itself;
only an option that still needs its value looks at the next word.
-/

namespace CompactShell.Search

open Shell Text

/-- The programs that search file contents. -/
inductive Searcher where
  | grep
  | rg
  deriving DecidableEq, Repr

namespace Searcher

def ofWord? (word : List Char) : Option Searcher :=
  if word = "grep".toList then some grep
  else if word = "rg".toList then some rg
  else none

/-- The letters of short options that take a value. -/
def valueLetters : Searcher → List Char
  | grep => ['A', 'B', 'C', 'D', 'd', 'e', 'f', 'm']
  | rg => ['A', 'B', 'C', 'E', 'M', 'T', 'e', 'f', 'g', 'j', 'm', 'r', 't']

end Searcher

/-- A part of a search. -/
inductive Item where
  /-- The pattern, given by an option. -/
  | pattern (word : Word)
  /-- A word that is no option and no option's value. -/
  | positional (word : Word)
  /-- An option to pass on, with its value if it has one. -/
  | option (texts : List (List Char))
  deriving DecidableEq, Repr

/-- What the value of an option is for. -/
inductive Role where
  | pattern
  /-- It is passed on behind the given flag. -/
  | option (flag : List Char)
  deriving DecidableEq, Repr

/-- The part of the search that a value makes. -/
def Role.item : Role → Word → Item
  | .pattern, value => .pattern value
  | .option flag, value => .option [flag, value.raw]

/-- What a single word says. -/
inductive Reading where
  /-- It is complete by itself. -/
  | items (items : List Item)
  /-- It ends in an option whose value is the next word. -/
  | valueNext (items : List Item) (role : Role)
  /-- Every word behind it is positional. -/
  | endOfOptions
  /-- It has no place in the compact form. -/
  | untranslatable
  deriving DecidableEq, Repr

/-- The value behind the equals sign of an option. It keeps its quotes, unless they were opened in
front of the option; then it gets quotes of its own. -/
def attachedValue (lead : String) (word : Word) : Word :=
  let value := word.value.drop lead.length
  if startsWith lead word.raw then ⟨word.raw.drop lead.length, value⟩
  else ⟨requote value, value⟩

/-- A cluster of short options: flags without a value, and perhaps one more with what is attached
to it. -/
structure Cluster where
  flags : List Char
  valued : Option (Char × List Char)
  deriving DecidableEq, Repr

/-- The cluster that the letters behind a dash make. The first letter that takes a value takes all
that follows; in front of it only letters and digits may stand. -/
def Cluster.ofLetters? (valueLetters : List Char) : List Char → Option Cluster
  | [] => some ⟨[], none⟩
  | c :: rest =>
    if valueLetters.contains c then some ⟨[], some (c, rest)⟩
    else if isAlphanumeric c then
      (Cluster.ofLetters? valueLetters rest).map fun cluster =>
        { cluster with flags := c :: cluster.flags }
    else none

/-- The flags of a cluster as an option to pass on. Asking for recursion adds nothing. -/
def Cluster.flagItems (cluster : Cluster) : List Item :=
  match cluster.flags.filter fun c => c != 'r' && c != 'R' with
  | [] => []
  | kept => [.option ['-' :: kept]]

/-- What the value of a short option is for. A file of patterns and a replacement have no place in
the compact form. -/
def shortRole? (letter : Char) : Option Role :=
  if letter = 'f' || letter = 'r' then none
  else if letter = 'e' then some .pattern
  else some (.option ['-', letter])

/-- What a cluster of short options says. -/
def Cluster.reading (cluster : Cluster) : Reading :=
  match cluster.valued with
  | none => .items cluster.flagItems
  | some (letter, attached) =>
    match shortRole? letter with
    | none => .untranslatable
    | some role =>
      if attached.isEmpty then .valueNext cluster.flagItems role
      else .items (cluster.flagItems ++ [role.item ⟨requote attached, attached⟩])

/-- What the value of a long option is for, when the value is the next word. -/
def longRole? (word : Word) : Option Role :=
  if word.value = "--regexp".toList then some .pattern
  else if word.value = "--include".toList then some (.option "--glob".toList)
  else if isOneOf
      ["--after-context", "--before-context", "--context", "--max-count", "--glob"] word.value then
    some (.option word.raw)
  else none

/-- A dash and an ASCII letter. -/
def isShortOption : List Char → Bool
  | '-' :: c :: _ => c.isAlpha
  | _ => false

/-- What a word says in a command of the given searcher. -/
def Reading.ofWord (searcher : Searcher) (word : Word) : Reading :=
  let value := word.value
  if value = "--".toList then .endOfOptions
  else if searcher = .grep && isOneOf ["-r", "-R", "--recursive"] value then .items []
  -- with a value attached or without one
  else if isOneOf ["--file", "--replace"] (value.takeWhile (· != '=')) then .untranslatable
  else if startsWith "--include=" value then
    .items [Role.item (.option "--glob".toList) (attachedValue "--include=" word)]
  else if startsWith "--regexp=" value then
    .items [.pattern (attachedValue "--regexp=" word)]
  else
    match longRole? word with
    | some role => .valueNext [] role
    | none =>
      if isShortOption value then
        match Cluster.ofLetters? searcher.valueLetters value.tail with
        | none => .untranslatable
        | some cluster => cluster.reading
      -- a dash alone is the standard input, so a path
      else if startsWith "-" value && value != ['-'] then .items [.option [word.raw]]
      else .items [.positional word]

/-- The parts of a search, in the order of the words behind the searcher's name. -/
def readItems? (searcher : Searcher) : List Word → Option (List Item)
  | [] => some []
  | word :: rest =>
    match Reading.ofWord searcher word with
    | .items items => (readItems? searcher rest).map (items ++ ·)
    | .valueNext items role =>
      match rest with
      | [] => none
      | value :: rest => (readItems? searcher rest).map fun more => items ++ role.item value :: more
    | .endOfOptions => some (rest.map .positional)
    | .untranslatable => none

end CompactShell.Search
