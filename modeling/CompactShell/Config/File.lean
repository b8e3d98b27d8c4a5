import CompactShell.Config.Basic
import CompactShell.Host.Basic
import CompactShell.Text.Quoted

/-!
# Configuration files

Each scope keeps its configuration in a file: the user's in the home directory, a project's in the
directory that a command runs in. A check of a file reports what is wrong with it; when the
configuration is used, a file with anything wrong counts as missing. The two go through a file step
by step, each in its own way (`check`, `load?`).
-/

namespace CompactShell.Config

open Host Json Text

inductive Problem where
  /-- Nothing is there. The path is kept as it was given. -/
  | notFound (path : List Char)
  /-- A directory is there. -/
  | directory (path : Path)
  | empty
  | notJson (cause : Cause) (place : Place)
  | notObject
  | invalid (fault : Fault)
  deriving DecidableEq, Repr

def Problem.message : Problem → String
  | .notFound path => "file not found: " ++ String.ofList path
  | .directory path =>
    "cannot read file: [Errno 21] Is a directory: " ++ String.ofList (Quoted.display path.text)
  | .empty => "config file is empty"
  | .notJson cause place => "invalid JSON: " ++ cause.report place
  | .notObject => "config must be a JSON object"
  | .invalid fault => fault.message

/-- The configuration that a text writes, or what is wrong with it. -/
def ofText (room : Room) (text : List Char) : Except Failure (Except Problem Config) :=
  if isWhite text then .ok (.error .empty)
  else
    match Json.readWithin room text with
    | .error (.refused refusal) => .error (.refused refusal)
    | .error (.malformed cause left) => .ok (.error (.notJson cause (.ofLeft text left)))
    | .ok (.obj members) => .ok ((ofMembers? members).mapError .invalid)
    | .ok _ => .ok (.error .notObject)

/-- The configuration at a path, or what is wrong with it. `shown` is the path as it was given. -/
def check (host : Host) (shown : List Char) (path : Path) :
    Except Failure (Except Problem Config) := do
  match ← host.contentsIfThere path with
  | .missing => return .error (.notFound shown)
  | .directory => return .error (.directory path)
  | .text text => ofText host.rooms.check text

/-- The configuration at a path as it is given on a command line, or what is wrong with it. -/
def checkGiven (host : Host) (given : List Char) : Except Failure (Except Problem Config) := do
  check host given (← host.expandHome (Path.ofText given))

/-- The configuration that a text writes, if it writes one. -/
def fromText? (room : Room) (text : List Char) : Except Failure (Option Config) :=
  if isWhite text then .ok none
  else
    match Json.readWithin room text with
    | .ok (.obj members) =>
      match ofMembers? members with
      | .ok config => .ok (some config)
      | .error _ => .ok none
    | .ok _ => .ok none
    | .error (.malformed _ _) => .ok none
    | .error (.refused refusal) => .error (.refused refusal)

/-- The configuration at a path, if there is one. It is read without a word about what is wrong. -/
def load? (host : Host) (path : Path) : Except Failure (Option Config) := do
  if ← host.isThere? path then
    match ← host.contents path with
    | .text text => fromText? host.rooms.config text
    | .missing | .directory => return none
  else return none

def projectFileName : Name := ".rtk-rewrite.json".toList

/-- The name of the directory that keeps all there is between commands. -/
def storeName : Name := ".cc-rtk-rewrite".toList

def userPath (host : Host) : Path :=
  .ofLocation (host.home ++ [storeName, "config.json".toList])

def projectPath (directory : Path) : Path :=
  directory.join projectFileName

/-- The configuration in force for a command, given the directory that it runs in if that is
known. -/
def inForce? (host : Host) (directory : Option (List Char)) : Except Failure (Option Config) := do
  let user ← load? host (userPath host)
  let project ←
    match directory with
    | none | some [] => pure none
    | some text => load? host (projectPath (Path.ofText text))
  return mergeScopes user project

end CompactShell.Config
