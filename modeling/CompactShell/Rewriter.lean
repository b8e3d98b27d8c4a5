import CompactShell.Rule.Table
import CompactShell.Shell.Assignment
import CompactShell.Shell.Line

/-!
# Rewriting commands

A rewriter tries its rules on the body of a command, the part behind indentation and assignments.
It stays away from commands that run the compact tool already and from here-documents. An operator
in the body blocks it too, unless it was told to rewrite through operators; then what stands in
front of the operator is rewritten and the rest kept.

A command of several lines is rewritten logical line by logical line. It counts as rewritten if any
of its lines is.
-/

namespace CompactShell

open Shell Text

/-- A rewritten command and the labels of the rules that did it, each once. -/
structure Rewrite where
  command : List Char
  labels : List String
  deriving DecidableEq, Repr

/-- The labels as they are reported. -/
def Rewrite.rule (rewrite : Rewrite) : String :=
  ", ".intercalate rewrite.labels

structure Rewriter where
  rules : List Rule
  throughOperators : Bool
  deriving DecidableEq, Repr

/-- The text goes on with the compact tool's name as a word. -/
def startsTool : List Char → Bool
  | 'r' :: 't' :: 'k' :: c :: _ => isSpace c
  | _ => false

/-- Somewhere in the text the compact tool is run by a path. -/
def holdsToolPath : List Char → Bool
  | [] => false
  | c :: rest => (c = '/' && startsTool rest) || holdsToolPath rest

/-- The command runs the compact tool already. -/
def invokesTool (command : List Char) : Bool :=
  startsTool command || holdsToolPath command

/-- The command has the mark of a here-document somewhere, even inside quotes. -/
def holdsHeredoc (command : List Char) : Bool :=
  holds "<<" command

namespace Rewriter

/-- The rewriter for some of a table's rules: those whose label is not disabled. -/
def ofRules (rules : List Rule) (disabled : List String) (throughOperators : Bool) : Rewriter :=
  ⟨rules.filter fun rule => !disabled.contains rule.label, throughOperators⟩

/-- The built-in rules, with operators in the way. -/
def builtIn : Rewriter :=
  ofRules Rule.table [] false

/-- The new body that the first rule to change it gives, and the rule's label. -/
def rewriteBody? (rewriter : Rewriter) (body : List Char) : Option (List Char × String) :=
  rewriter.rules.findSome? fun rule => (rule.rewrite? body).map (·, rule.label)

/-- The new line, and the label of the rule that gave it. -/
def rewriteLine? (rewriter : Rewriter) (line : List Char) : Option (List Char × String) :=
  let indent := line.takeWhile isSpace
  let command := trimStart line
  let (assignments, body) := splitAssignments command
  if invokesTool command || holdsHeredoc command || invokesTool body then none
  else if !rewriter.throughOperators && hasOperator body then none
  else (rewriter.rewriteBody? body).map fun (body, label) => (indent ++ assignments ++ body, label)

/-- The line has nothing to run: it is white, or a comment. -/
def isIdle (line : List Char) : Bool :=
  match trimStart line with
  | [] => true
  | c :: _ => c = '#'

/-- A line of a longer command: as it will run, with the label of the rule that changed it. -/
def rewriteOne (rewriter : Rewriter) (line : List Char) : List Char × Option String :=
  if isIdle line then (line, none)
  else
    match rewriter.rewriteLine? line with
    | none => (line, none)
    | some (line, label) => (line, some label)

/-- The command in its compact form, if it has one. -/
def rewrite? (rewriter : Rewriter) (command : List Char) : Option Rewrite :=
  if !command.contains '\n' then
    (rewriter.rewriteLine? command).map fun (command, label) => ⟨command, [label]⟩
  else if holdsHeredoc command then none
  else
    let lines := (logicalLines (splitLines command)).map rewriter.rewriteOne
    let labels := (lines.filterMap Prod.snd).eraseDups
    if labels.isEmpty then none else some ⟨joinLines (lines.map Prod.fst), labels⟩

end Rewriter

end CompactShell
