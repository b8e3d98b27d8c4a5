import CompactShell.Shell.Operator
import CompactShell.Shell.Word
import CompactShell.Text.Choice

/-!
# Searching file names

A `find` command is read into the criteria that the compact form has a place for: a name, one path
and the kind of file. Depth limits are dropped. A command with any other criterion, or with an
action, is not translated.
-/

namespace CompactShell.Search

open Shell Text

/-- What a word of a `find` command asks for. All but a path ask for it with the next word. -/
inductive Criterion where
  | name
  | kind
  | depth
  | path
  | unknown
  deriving DecidableEq, Repr

def Criterion.ofWord (word : Word) : Criterion :=
  if isOneOf ["-name", "-iname"] word.value then name
  else if isOneOf ["-type"] word.value then kind
  else if isOneOf ["-maxdepth", "-mindepth"] word.value then depth
  else if startsWith "-" word.value then unknown
  else path

/-- The criteria of a search by name. Of several names, or several kinds, the last one counts. -/
structure Criteria where
  name : Option Word
  path : Option Word
  kind : Option (List Char)
  deriving DecidableEq, Repr

namespace Criteria

def empty : Criteria := ⟨none, none, none⟩

/-- The criteria with those that further words add. A last word that asks for a name without giving
one is passed over; every other criterion needs its value, and a second path has no place. -/
def read? (criteria : Criteria) : List Word → Option Criteria
  | [] => some criteria
  | word :: rest =>
    match Criterion.ofWord word, rest with
    | .name, [] => some criteria
    | .name, value :: rest => read? { criteria with name := some value } rest
    | .kind, value :: rest => read? { criteria with kind := some value.value } rest
    | .depth, _ :: rest => read? criteria rest
    | .path, rest =>
      if criteria.path.isSome then none else read? { criteria with path := some word } rest
    | _, _ => none

/-- Actions, and a separator of results that the compact form does not know. -/
def actions : List String :=
  ["-exec", "-execdir", "-delete", "-print0", "-ok", "-fls", "-fprint"]

/-- The criteria that a command's words ask for. An action is an action even in the place of a
value. -/
def ofWords? : List Word → Option Criteria
  | [] => none
  | program :: args =>
    if program.value != "find".toList || args.any (isOneOf actions ·.value) then none
    else empty.read? args

/-- The option for a kind of file. The compact form knows plain files and directories. -/
def kindOption (criteria : Criteria) : List (List Char) :=
  match criteria.kind with
  | some kind => if isOneOf ["f", "d"] kind then ["-t".toList, kind] else []
  | none => []

/-- The texts of the compact command, in order. A command without a name is not translated. -/
def texts? (criteria : Criteria) : Option (List (List Char)) :=
  criteria.name.map fun name =>
    "rtk".toList :: "find".toList :: name.raw ::
      (criteria.path.toList.map Word.raw ++ criteria.kindOption)

end Criteria

/-- The compact form of a search by name, with the rest of the line behind its first operator. -/
def translateFind? (body : List Char) : Option (List Char) :=
  let (command, tail) := splitAtOperator body
  (Criteria.ofWords? (words command)).bind fun criteria =>
    criteria.texts?.map fun texts => joinBlank texts ++ tail

end CompactShell.Search
