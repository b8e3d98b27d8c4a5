import CompactShell.Command.Hook
import CompactShell.Command.Statistics
import CompactShell.Command.Verification
import CompactShell.Log.Time
import Std.Time.DateTime.Timestamp

/-!
# The command line

`hook`, `stats` and `verify` run the three commands on the machine they are called on. What a
command may look at is read into a `Host` first; what it puts into a log is written when it is done.
-/

namespace CompactShell.CommandLine

open Host Command

/-- The path of a place for the functions of the system. -/
def systemPath (location : Location) : String :=
  String.ofList (Path.ofLocation location).text

/-- The place that an absolute path leads to. -/
def locationOf (path : String) : Location :=
  (Path.ofText path.toList).names

/-- The files with what really stands at a place, and what is in it if it is a file. -/
def observe (files : Files) (location : Location) : IO Files := do
  try
    let path := systemPath location
    let real ← IO.FS.realPath path
    let metadata ← real.metadata
    -- nanoseconds, so that of two logs the later one can be told
    let changed := metadata.modified.sec.toNat * 1000000000 + metadata.modified.nsec.toNat
    if ← real.isDir then return files.put location (.directory changed)
    let bytes ← IO.FS.readBinFile path
    return files.put location (.file bytes.toList changed)
  catch _ => return files

/-- The files with all that stands on the way that a path takes from a directory. -/
def observeWay (files : Files) (start : Location) (names : List Name) : IO Files := do
  let mut files := files
  let mut location : Location := []
  for name in start ++ names do
    location := if name == ['.', '.'] then location.dropLast else location ++ [name]
    files ← observe files location
  return files

/-- The files with all that stands on the way that a path takes. -/
def observePath (host : Host) (path : Path) : IO Host := do
  let start := if path.root = .current then host.current else []
  return { host with files := ← observeWay host.files start path.names }

/-- The host with the entries of the directory of logs. -/
def observeLogs (host : Host) : IO Host := do
  let directory := Log.directory host
  let host ← observePath host (.ofLocation directory)
  try
    let real ← IO.FS.realPath (systemPath directory)
    let mut files := host.files
    for entry in ← real.readDir do
      files ← observe files (directory ++ [entry.fileName.toList])
    return { host with files }
  catch _ => return host

/-- The program stands in a directory of the search path. -/
def isInstalled (program : String) : IO Bool := do
  let directories := ((← IO.getEnv "PATH").getD "").splitOn ":"
  directories.anyM fun directory => do
    try
      let real ← IO.FS.realPath (directory ++ "/" ++ program)
      return !(← real.isDir)
    catch _ => return false

/-- What a limit of a thousand open calls leaves for arrays and objects. -/
def rooms : Rooms :=
  ⟨some 993, some 993, some 992, some 992, by decide⟩

/-- The machine without its files. -/
def machine : IO Host := do
  let home := ((← IO.getEnv "HOME").getD "/")
  let current ← IO.currentDir
  let names := [Config.disableVariable, Config.throughOperatorsVariable]
  let environment ← names.filterMapM fun name => do
    return (← IO.getEnv name).map (name, ·)
  return {
    files := .empty
    home := locationOf home
    current := locationOf current.toString
    environment
    hasTool := ← isInstalled "rtk"
    accounts := []
    now := 0
    rooms }

/-- Writes what has been put behind the files of a host. -/
def store (before after : Host) : IO Unit := do
  for (location, node) in after.files.nodes do
    match before.files.get? location, node with
    | none, .directory _ => IO.FS.createDirAll (systemPath location)
    | old, .file bytes _ =>
      let known := match old with
        | some (.file bytes _) => bytes.length
        | _ => 0
      -- logs only grow, so the bytes that are known already stand there
      if known < bytes.length then
        let log ← IO.FS.Handle.mk (systemPath location) .append
        log.write ⟨(bytes.drop known).toArray⟩
    | _, _ => pure ()

def currentTime : IO Nat := do
  let now ← Std.Time.Timestamp.now
  return now.toNanosecondsSinceUnixEpoch.val.toNat / 1000

/-- Prints what a command prints and gives its status. -/
def finish (outcome : Outcome) : IO UInt32 := do
  IO.print outcome.output
  IO.eprint outcome.errors
  match outcome.ending with
  | .ok status => return status.toUInt32
  | .error failure =>
    IO.eprintln failure.message
    return 1

/-- The host with the files that the hook may look at for a call. -/
def observeCall (host : Host) (call : ToolCall) : IO Host := do
  let host ← observePath host (Config.userPath host)
  let host ← match call.directory with
    | some directory => observePath host (Config.projectPath (.ofText directory))
    | none => pure host
  match call.session.bind fun session => Log.fileName? session.toList with
  | some file => observePath host (Log.path host file)
  | none => return host

def runHook : IO UInt32 := do
  let text := (← (← IO.getStdin).readToEnd).toList
  let host ← machine
  let host ← match ToolCall.ofText? host.rooms.event text with
    | .ok (some call) => observeCall host call
    | _ => pure host
  let (outcome, after) := Hook.run host (Log.stamp (← currentTime)) text
  try store host after catch _ => pure ()
  finish outcome

/-- The host with both configuration files. -/
def observeConfigs (host : Host) : IO Host := do
  let host ← observePath host (Config.userPath host)
  observePath host (Config.projectPath (.ofLocation host.current))

def runStatistics (arguments : List String) : IO UInt32 := do
  let host ← observeLogs (← observeConfigs (← machine))
  finish (Statistics.run host (arguments.map String.toList))

def runVerification : IO UInt32 := do
  finish (Verification.run (← observeConfigs (← machine)))

end CompactShell.CommandLine

open CompactShell.CommandLine in
/-- Runs the command that the first argument names. -/
def main (arguments : List String) : IO UInt32 := do
  match arguments with
  | "hook" :: _ => runHook
  | "stats" :: rest => runStatistics rest
  | "verify" :: _ => runVerification
  | _ =>
    IO.eprintln "usage: compact-shell hook | stats [-h] [session_id] | verify"
    return 2
