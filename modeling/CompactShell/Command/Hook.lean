import CompactShell.Command.Outcome
import CompactShell.Config.Effect
import CompactShell.Log.Store
import CompactShell.Session.Basic

/-!
# The hook

The hook is run for each command that an agent is about to hand to its shell. It reads an event that
tells of the call, and answers with the command in its compact form, with a warning that the compact
tool is missing, or not at all, which lets the command run as it is. Each command that it takes part
in is logged.
-/

namespace CompactShell.Command

open Json Text Log

/-- A call of the agent's shell that is about to be made. -/
structure ToolCall where
  command : List Char
  /-- All that the agent gives to its shell, the command included. -/
  input : Members
  directory : Option (List Char)
  session : Option String

namespace ToolCall

/-- The directory of an event, without white space around it. -/
def directoryOf (value : Option Value) : Option (List Char) :=
  match value with
  | some (.str text) => if isWhite text.toList then none else some (trim text.toList)
  | _ => none

/-- A text that is there. -/
def textOf (value : Option Value) : Option String :=
  match value with
  | some (.str text) => some text
  | _ => none

/-- The call that an event tells of. Events of other tools, and commands that are white, are none
of the hook's business. -/
def ofMembers? (members : Members) : Option ToolCall :=
  match members.get? "tool_name", members.get? "tool_input" with
  | some (.str "Bash"), some (.obj input) =>
    match Members.get? input "command" with
    | some (.str command) =>
      if isWhite command.toList then none
      else
        some
          { command := command.toList, input
            directory := directoryOf (members.get? "cwd")
            session := textOf (members.get? "session_id") }
    | _ => none
  | _, _ => none

/-- The call that the text of an event tells of. -/
def ofText? (room : Room) (text : List Char) : Except Failure (Option ToolCall) :=
  match Json.readWithin room text with
  | .ok (.obj members) => .ok (ofMembers? members)
  | .error (.refused refusal) => .error (.refused refusal)
  | _ => .ok none

end ToolCall

inductive Answer where
  /-- The command may run as it is. -/
  | silence
  /-- The compact tool is missing. -/
  | warning (text : String)
  /-- The agent's shell is to be given this instead. -/
  | update (input : Members)

def Answer.value? : Answer → Option Value
  | .silence => none
  | .warning text => some (.obj [("systemMessage", .str text)])
  | .update input =>
    some (.obj [("hookSpecificOutput",
      .obj [("hookEventName", .str "PreToolUse"), ("updatedInput", .obj input)])])

def Answer.output (answer : Answer) : String :=
  match answer.value? with
  | none => ""
  | some value => String.ofList (write value ++ ['\n'])

namespace Hook

/-- The host with one more entry in the call's log, if it has one. -/
def record (host : Host) (time : String) (log : Option Host.Name) (kind : Log.Event)
    (call : ToolCall) (rewrite : Option Rewrite) : Host :=
  match log with
  | none => host
  | some file =>
    Log.append host file (.ofCommand time kind call.command rewrite call.directory)

/-- Answers while the compact tool is missing. The warning is given once a session, so only where a
log tells whether it has been given. -/
def warn (host : Host) (time : String) (log : Option Host.Name) (call : ToolCall)
    (warning : String) : Except Failure (Answer × Host) := do
  match log with
  | none => return (.silence, host)
  | some file =>
    if ← Log.isWarned host (Log.path host file) then return (.silence, host)
    else return (.warning warning, record host time log .unavailable call none)

def answer (host : Host) (time : String) (call : ToolCall) : Except Failure (Answer × Host) := do
  let config ← Config.inForce? host call.directory
  if !Config.isRewriting host config then return (.silence, host)
  let log := call.session.bind fun session => Log.fileName? session.toList
  -- the hook is a session of one command, and it is switched on
  let session := Session.new (Config.rewriter host config) host.hasTool true
  match session.warning? with
  | (some warning, _) => warn host time log call warning
  | (none, session) =>
    match session.handle call.command with
    | (none, _) => return (.silence, record host time log .pass call none)
    | (some rewrite, _) =>
      let input := call.input.put "command" (textValue rewrite.command)
      return (.update input, record host time log .rewrite call (some rewrite))

/-- Runs the hook on the text of an event. `time` is written into the log. A failure leaves the host
as it was. -/
def run (host : Host) (time : String) (input : List Char) : Outcome × Host :=
  let result : Except Failure (Answer × Host) := do
    match ← ToolCall.ofText? host.rooms.event input with
    | none => return (.silence, host)
    | some call => answer host time call
  match result with
  | .ok (answer, host) => (⟨answer.output, "", .ok 0⟩, host)
  -- what was logged on the way is given up with the rest
  | .error failure => (⟨"", "", .error failure⟩, host)

end Hook

end CompactShell.Command
