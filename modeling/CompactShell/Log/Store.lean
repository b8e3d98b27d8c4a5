import CompactShell.Config.File
import CompactShell.Log.Entry
import CompactShell.Log.Name

/-!
# The store of logs

The logs of all sessions are files of one directory below the home directory. Entries are only ever
put behind those that are there. Where a file or a directory is in the way, nothing is written and
nothing is reported.
-/

namespace CompactShell.Log

open Host Json

def directory (host : Host) : Location :=
  host.home ++ [Config.storeName, "logs".toList]

def path (host : Host) (file : Name) : Path :=
  .ofLocation (directory host ++ [file])

/-- The entries that can be read at a path. -/
def entriesAt (host : Host) (path : Path) : Except Failure (List Members) := do
  match ← host.contents path with
  | .text text => entriesOf host.rooms.log text
  | .missing | .directory => return []

/-- The log has an entry that says the compact tool is missing. -/
def isWarned (host : Host) (path : Path) : Except Failure Bool := do
  return (← entriesAt host path).any (isAbout .unavailable)

/-- The host with one more entry in a log. -/
def append (host : Host) (file : Name) (entry : Entry) : Host :=
  let files := do
    let files ← host.files.makeDirectories host.now [] (directory host)
    files.append host.now (directory host ++ [file]) (Text.Utf8.encode entry.line)
  match files with
  | some files => { host with files }
  | none => host

/-- The later changed of two entries of a directory. -/
def later (a : Name × Node) (b : Name × Node) : Name × Node :=
  if a.2.changed ≤ b.2.changed then b else a

/-- The file name of the log that was changed last. -/
def latest? (host : Host) : Option Name :=
  if host.files.isDirectory (directory host) then
    match (host.files.children (directory host)).filter fun entry =>
        extension.isSuffixOf entry.1 with
    | [] => none
    | entry :: rest => some (rest.foldl later entry).1
  else none

end CompactShell.Log
