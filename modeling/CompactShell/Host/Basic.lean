import CompactShell.Failure
import CompactShell.Host.Files
import CompactShell.Json.Reader
import CompactShell.Text.Lines

/-!
# Hosts

A host is what a command can see of the machine it runs on: the files, the home directory and the
current one, the environment, whether the compact tool is installed, and a clock. A path is followed
through the directories as they are. Reading a file gives text with its line ends unified.

Names and paths have a longest length, and looking up a longer one fails. What is kept below the
home directory and in the current one is taken to have names that are short enough: only a path that
a command is given is ever too long (`Host.isThere?`). There are no links and no permissions, a file
that is there can be read, and the disk is never full.
-/

namespace CompactShell

open Text Host

/-- The room that there is for reading the JSON texts. The calls that are open at once are limited,
those of the program and those of the reader together, so what is read from deeper inside the
program has less room. There is always room to report a fault, and for a configuration. -/
structure Host.Rooms where
  event : Json.Room
  /-- A configuration that is checked. -/
  check : Json.Room
  /-- A configuration that is used. -/
  config : Json.Room
  /-- A line of a log. -/
  log : Json.Room
  enough : ∀ room ∈ [event, check, config, log], room.Holds Json.reportCalls
  deriving DecidableEq, Repr

/-- There is no limit. -/
def Host.Rooms.unlimited : Rooms :=
  ⟨none, none, none, none, by decide⟩

theorem Host.Rooms.check_holds (rooms : Rooms) : rooms.check.Holds 3 :=
  rooms.enough _ (by simp)

theorem Host.Rooms.log_holds (rooms : Rooms) : rooms.log.Holds 3 :=
  rooms.enough _ (by simp)

/-- What a command can see of its machine. -/
structure Host where
  files : Host.Files
  home : Location
  current : Location
  environment : List (String × String)
  /-- The compact tool is installed. -/
  hasTool : Bool
  accounts : List (Name × List Char)
  /-- The time on the clock of changes. -/
  now : Nat
  rooms : Host.Rooms
  deriving DecidableEq, Repr

namespace Host

def variableValue? (host : Host) (name : String) : Option String :=
  (host.environment.find? fun entry => entry.1 == name).map Prod.snd

/-- The directory that a path starts in. -/
def start (host : Host) (path : Path) : Location :=
  if path.root = .current then host.current else []

/-- The place that a path leads to, if something stands there. -/
def locate? (host : Host) (path : Path) : Option Location :=
  if path.hasNull then none else host.files.walk (host.start path) path.names

def find? (host : Host) (path : Path) : Option Node :=
  (host.locate? path).bind host.files.get?

/-- The path cannot be looked up: it is too long, or a name is that it leads to. A path with a null
character is not even tried. -/
def isTooLong (host : Host) (path : Path) : Bool :=
  !path.hasNull &&
    ((Utf8.encode path.text).length > Path.maxLength ||
      host.files.meetsLongName (host.start path) path.names)

/-- Something stands at a path. -/
def isThere? (host : Host) (path : Path) : Except Failure Bool :=
  if host.isTooLong path then .error (.pathTooLong path) else .ok (host.find? path).isSome

/-- What can be read at a path. -/
inductive Contents where
  | missing
  | directory
  | text (text : List Char)
  deriving DecidableEq, Repr

/-- The text that bytes hold, with every line end a newline. -/
def textOf (bytes : List UInt8) : Except Failure (List Char) :=
  match Utf8.decode bytes with
  | .ok text => .ok (unifyNewlines text)
  | .error fault => .error (.notText fault)

def contents (host : Host) (path : Path) : Except Failure Contents :=
  match host.find? path with
  | none => .ok .missing
  | some (.directory _) => .ok .directory
  | some (.file bytes _) => (textOf bytes).map .text

/-- What can be read at a path that is looked up first. -/
def contentsIfThere (host : Host) (path : Path) : Except Failure Contents := do
  if ← host.isThere? path then host.contents path else return .missing

/-- The home directory of a user. No name stands for the user who runs the command. -/
def homeOf? (host : Host) (user : Name) : Option Path :=
  if user.isEmpty then some (Path.ofLocation host.home)
  else
    (host.accounts.find? fun account => account.1 == user).map fun account =>
      Path.ofText account.2

/-- The path with the home directory in place of a tilde. A name behind the tilde asks for the home
directory of that user. -/
def expandHome (host : Host) (path : Path) : Except Failure Path :=
  match path.root, path.names with
  | .current, ('~' :: user) :: rest =>
    if user.contains '\x00' then .error .nullInUser
    else
      match host.homeOf? user with
      | some home => .ok { home with names := home.names ++ rest }
      | none => .error .unknownUser
  | _, _ => .ok path

end Host

end CompactShell
