import CompactShell.Search.Grep.Item
import CompactShell.Shell.Operator

/-!
# Searching file contents

A `grep` or `rg` command becomes a compact command that puts the pattern first, then the path, then
the options, each with the quotes it was typed with. A command with a part that has no place in that
form is not translated.
-/

namespace CompactShell.Search

open Shell Text

structure Query where
  pattern : Word
  path : Option Word
  options : List (List Char)
  deriving DecidableEq, Repr

/-- The patterns given by options, in order. -/
def patternsOf (items : List Item) : List Word :=
  items.filterMap fun
    | .pattern word => some word
    | _ => none

def positionalsOf (items : List Item) : List Word :=
  items.filterMap fun
    | .positional word => some word
    | _ => none

/-- The options to pass on with their values, in order. -/
def optionsOf (items : List Item) : List (List Char) :=
  items.flatMap fun
    | .option texts => texts
    | _ => []

/-- Puts the parts in their places. One option may give the pattern; without one the first
positional word is the pattern. One path may be left. A pattern that starts with a dash would be
read as a flag. -/
def Query.ofItems? (items : List Item) : Option Query :=
  let place (pattern : Word) (paths : List Word) : Option Query :=
    if startsWith "-" pattern.value then none
    else
      match paths with
      | [] => some ⟨pattern, none, optionsOf items⟩
      | [path] => some ⟨pattern, some path, optionsOf items⟩
      | _ => none
  match patternsOf items, positionalsOf items with
  | [], [] => none
  | [], pattern :: paths => place pattern paths
  | [pattern], paths => place pattern paths
  | _, _ => none

/-- The search that a command's words ask for. -/
def Query.ofWords? : List Word → Option Query
  | [] => none
  | name :: args =>
    match Searcher.ofWord? name.value with
    | none => none
    | some searcher =>
      if args.isEmpty then none else (readItems? searcher args).bind Query.ofItems?

/-- The texts of the compact command, in order. -/
def Query.texts (query : Query) : List (List Char) :=
  "rtk".toList :: "grep".toList :: query.pattern.raw ::
    (query.path.toList.map Word.raw ++ query.options)

/-- The compact form of a search, with the rest of the line behind its first operator. -/
def translateGrep? (body : List Char) : Option (List Char) :=
  let (command, tail) := splitAtOperator body
  (Query.ofWords? (words command)).map fun query => joinBlank query.texts ++ tail

end CompactShell.Search
