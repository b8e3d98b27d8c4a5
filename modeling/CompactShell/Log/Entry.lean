import CompactShell.Failure
import CompactShell.Json.Display
import CompactShell.Json.Reader
import CompactShell.Log.Redaction
import CompactShell.Rewriter
import CompactShell.Session.Tally
import CompactShell.Text.Lines

/-!
# Log entries

A log has one entry a line, each a JSON object. An entry is written without secrets and without the
end of a long command. When a log is read, a line that is no JSON object is passed over.
-/

namespace CompactShell.Log

open Json Text Session

inductive Event where
  | rewrite
  | pass
  | unavailable
  deriving DecidableEq, Repr

def Event.name : Event → String
  | rewrite => "rewrite"
  | pass => "pass"
  | unavailable => "unavailable"

/-- What is logged of an observed command. -/
structure Entry where
  time : String
  event : Event
  rule : Option String
  command : List Char
  rewritten : Option (List Char)
  directory : Option (List Char)
  deriving DecidableEq, Repr

/-- The most characters of a command that are logged. -/
def maxCommand : Nat := 300

/-- What is logged of a command's text. -/
def loggedText (command : List Char) : List Char :=
  (redact command).take maxCommand

def Entry.ofCommand (time : String) (event : Event) (command : List Char)
    (rewrite : Option Rewrite) (directory : Option (List Char)) : Entry :=
  { time, event
    rule := rewrite.map Rewrite.rule
    command := loggedText command
    rewritten := rewrite.map fun rewrite => loggedText rewrite.command
    directory }

def textValue (text : List Char) : Value :=
  .str (String.ofList text)

/-- What there is, or null. -/
def orNull {α : Type} (value : α → Value) (a : Option α) : Value :=
  (a.map value).getD .null

def Entry.members (entry : Entry) : Members :=
  [("ts", .str entry.time),
    ("event", .str entry.event.name),
    ("rule", orNull .str entry.rule),
    ("command", textValue entry.command),
    ("rewritten", orNull textValue entry.rewritten),
    ("cwd", orNull textValue entry.directory)]

def Entry.line (entry : Entry) : List Char :=
  write (.obj entry.members) ++ ['\n']

/-- The entries on some lines of a log. -/
def entriesOn (room : Room) : List (List Char) → Except Failure (List Members)
  | [] => .ok []
  | line :: rest =>
    if isWhite line then entriesOn room rest
    else
      match Json.readWithin room line with
      | .error (.refused refusal) => .error (.refused refusal)
      | .ok (.obj members) => (entriesOn room rest).map (members :: ·)
      | _ => entriesOn room rest

def entriesOf (room : Room) (log : List Char) : Except Failure (List Members) :=
  entriesOn room (splitAtBreaks log)

def isAbout (event : Event) (members : Members) : Bool :=
  match members.get? "event" with
  | some (.str name) => name == event.name
  | _ => false

/-- The rule that an entry names. A question mark stands for none. -/
def ruleOf (members : Members) : String :=
  match members.get? "rule" with
  | none => "?"
  | some value => if value.isVoid then "?" else String.ofList (display value)

/-- What an entry says of its command: the rule that rewrote it, or that it passed through. Entries
about anything else are not counted. -/
def recordOf? (members : Members) : Option (Option String) :=
  if isAbout .pass members then some none
  else if isAbout .rewrite members then some (some (ruleOf members))
  else none

/-- The counts that a log's entries add up to. -/
def tallyOf (entries : List Members) : Tally :=
  .ofList (entries.filterMap recordOf?)

end CompactShell.Log
