import CompactShell.Command.Arguments
import CompactShell.Command.Outcome
import CompactShell.Config.Effect
import CompactShell.Log.Store

/-!
# The statistics command

Prints the report on a session from its log, or on the session that was active last.
-/

namespace CompactShell.Command.Statistics

open Host Text

def usage : String := "usage: rtk_stats [-h] [session_id]\n"

def help : String :=
  usage ++
    printed
      ["",
        "Show rtk rewrite statistics for a Claude Code session.",
        "",
        "positional arguments:",
        "  session_id  session to report on (default: most recent)",
        "",
        "options:",
        "  -h, --help  show this help message and exit"]

/-- The file of the log to report on, if it is there. An empty session asks for the log that was
changed last. -/
def logFile? (host : Host) (session : Option (List Char)) : Option Name :=
  let file :=
    match session with
    | none | some [] => Log.latest? host
    | some session => Log.fileName? session
  file.filter fun file => (host.find? (Log.path host file)).isSome

def reportOn (host : Host) (file : Name) : Except Failure String := do
  let tally := Log.tallyOf (← Log.entriesAt host (Log.path host file))
  let config ← Config.inForce? host (some (Path.ofLocation host.current).text)
  return printed
    ["Session: " ++ String.ofList (Path.stem file),
      tally.report (Config.isRewriting host config)]

def run (host : Host) (arguments : List (List Char)) : Outcome :=
  match Arguments.read arguments with
  | .error misuse => ⟨"", usage ++ "rtk_stats: error: " ++ misuse.message ++ "\n", .ok 2⟩
  | .ok .help => ⟨help, "", .ok 0⟩
  | .ok (.report session) =>
    match logFile? host session with
    | none => ⟨"", "No rewrite log found.\n", .ok 1⟩
    | some file =>
      match reportOn host file with
      | .ok report => ⟨report, "", .ok 0⟩
      | .error failure => ⟨"", "", .error failure⟩

end CompactShell.Command.Statistics
