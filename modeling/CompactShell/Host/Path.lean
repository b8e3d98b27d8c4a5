/-!
# Paths

A path is written as names between slashes. Empty names and single dots say nothing and are dropped
when a path is read; two dots are kept, since what they mean depends on the directories that are
there. A path that starts with two slashes, and no third, keeps both.
-/

namespace CompactShell.Host

abbrev Name := List Char

/-- The names from the root of the file system to a place in it. -/
abbrev Location := List Name

inductive Root where
  | current
  | slash
  /-- At the root of the file system too, written with two slashes. -/
  | doubleSlash
  deriving DecidableEq, Repr

/-- A path as it is used: where it starts and the names to follow. -/
structure Path where
  root : Root
  names : List Name
  deriving DecidableEq, Repr

namespace Path

/-- How many slashes a path starts with tells where it starts. -/
def rootOf (text : List Char) : Root :=
  match (text.takeWhile (· == '/')).length with
  | 0 => .current
  | 2 => .doubleSlash
  | _ => .slash

def ofText (text : List Char) : Path :=
  ⟨rootOf text, (text.splitOn '/').filter fun name => !name.isEmpty && name != ['.']⟩

def ofLocation (location : Location) : Path :=
  ⟨.slash, location⟩

def join (path : Path) (name : Name) : Path :=
  { path with names := path.names ++ [name] }

def text (path : Path) : List Char :=
  let names := ['/'].intercalate path.names
  match path.root with
  | .current => if path.names.isEmpty then ['.'] else names
  | .slash => '/' :: names
  | .doubleSlash => '/' :: '/' :: names

/-- The most bytes of a path that can be looked up. -/
def maxLength : Nat := 4095

def hasNull (path : Path) : Bool :=
  path.names.any (·.contains '\x00')

/-- The last name without what follows its last dot, unless the dot starts or ends it. -/
def stem (name : Name) : Name :=
  let ending := (name.reverse.takeWhile (· != '.')).length
  let lead := name.length - ending - 1
  if ending = 0 || name.length ≤ ending + 1 then name else name.take lead

end Path

end CompactShell.Host
