import CompactShell.Rule.Phrase
import CompactShell.Rule.Subcommand
import CompactShell.Search.Find
import CompactShell.Search.Grep
import CompactShell.Search.Head

/-!
# Rules

A rule has a label, a guard that says which commands it is about, and an action that gives the
compact form. Guards and actions are data, so the rules of a table can be compared one by one; what
they mean is said by `Guard.accepts` and `Action.apply`.

A rule sees the body of a command, without the assignments in front of it.
-/

namespace CompactShell

open Shell Text Search

namespace Rule

/-- Which commands a rule is about. -/
inductive Guard where
  /-- Those that start with one of some phrases. -/
  | phrase (phrases : List Phrase) (stop : Stop)
  /-- Those that run a program with one of some subcommands, unless they start with one of some
  phrases. -/
  | subcommand (program : Program) (allowed : List String) (except : List Phrase)
  /-- Those that ask for the first lines of a file by their count. -/
  | lineCount
  deriving DecidableEq, Repr

/-- What is replaced along with a phrase. -/
inductive Extent where
  | phrase
  /-- The white space behind the phrase too. -/
  | space
  /-- One more word too, if it comes next. -/
  | word (word : String)
  deriving DecidableEq, Repr

/-- How a rule rewrites a command. -/
inductive Action where
  /-- The compact tool's name goes in front. -/
  | wrap
  /-- One of some phrases at the start is replaced by a fixed text. -/
  | replace (phrases : List Phrase) (stop : Stop) (extent : Extent) (text : String)
  | grep
  | find
  | head
  deriving DecidableEq, Repr

/-- The rule is about the command. -/
def Guard.accepts : Guard → List Char → Bool
  | .phrase phrases stop, body => (afterAny? phrases stop body).isSome
  | .subcommand program allowed except, body =>
    (afterAny? [[program.name]] .space body).isSome &&
      (afterAny? except .edge body).isNone && isOneOf allowed (program.subcommand body)
  | .lineCount, body => (headCount? body).isSome

/-- What is left of the rest of a command behind a phrase. -/
def Extent.trim : Extent → List Char → List Char
  | .phrase, rest => rest
  | .space, rest => trimStart rest
  | .word extra, rest =>
    if startsWithSpace rest then
      ((afterWord? extra.toList (trimStart rest)).filter Stop.edge.allows).getD rest
    else rest

/-- The command in its compact form, or as it is if it has none. -/
def Action.apply : Action → List Char → List Char
  | .wrap, body => "rtk ".toList ++ body
  | .replace phrases stop extent text, body =>
    match afterAny? phrases stop body with
    | some rest => text.toList ++ extent.trim rest
    | none => body
  | .grep, body => (translateGrep? body).getD body
  | .find, body => (translateFind? body).getD body
  | .head, body => (translateHead? body).getD body

end Rule

structure Rule where
  label : String
  guard : Rule.Guard
  action : Rule.Action
  deriving DecidableEq, Repr

/-- The new body that a rule gives a command it is about, if it changes anything. -/
def Rule.rewrite? (rule : Rule) (body : List Char) : Option (List Char) :=
  if rule.guard.accepts body && rule.action.apply body != body then some (rule.action.apply body)
  else none

end CompactShell
