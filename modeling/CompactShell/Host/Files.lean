import CompactShell.Host.Path
import CompactShell.Text.Utf8

/-!
# Files

The files that a command can see: which places hold a file or a directory, what is in each file, and
when each was last changed on a clock that counts upwards. The root is always a directory.
-/

namespace CompactShell.Host

inductive Node where
  | file (bytes : List UInt8) (changed : Nat)
  | directory (changed : Nat)
  deriving DecidableEq, Repr

/-- When what stands there was last changed. -/
def Node.changed : Node → Nat
  | .file _ changed => changed
  | .directory changed => changed

/-- The places that hold something. -/
structure Files where
  nodes : List (Location × Node)
  deriving DecidableEq, Repr

namespace Files

def empty : Files := ⟨[]⟩

def get? (files : Files) (location : Location) : Option Node :=
  if location = [] then some (.directory 0)
  else (files.nodes.find? fun entry => entry.1 = location).map Prod.snd

def isDirectory (files : Files) (location : Location) : Bool :=
  match files.get? location with
  | some (.directory _) => true
  | _ => false

/-- The entries with something new at a place. A new place goes last. -/
def putNode (location : Location) (node : Node) :
    List (Location × Node) → List (Location × Node)
  | [] => [(location, node)]
  | (other, old) :: rest =>
    if other = location then (location, node) :: rest
    else (other, old) :: putNode location node rest

def put (files : Files) (location : Location) (node : Node) : Files :=
  ⟨putNode location node files.nodes⟩

/-- The directories on the way to a place made where nothing stands yet, the place included. Nothing
can be made below a file. -/
def makeDirectories (files : Files) (now : Nat) (done : Location) : Location → Option Files
  | [] => if files.isDirectory done then some files else none
  | name :: rest =>
    if files.isDirectory done then
      let next := done ++ [name]
      let files := if (files.get? next).isNone then files.put next (.directory now) else files
      makeDirectories files now next rest
    else none

/-- The files with a new content at a place. A content that is there already is left alone. -/
def write (files : Files) (now : Nat) (location : Location) (bytes : List UInt8) : Files :=
  match files.get? location with
  | some (.file old changed) =>
    -- the time tells when the content changed, not when it was written
    files.put location (.file bytes (if old = bytes then changed else now))
  | _ => files.put location (.file bytes now)

/-- The files with bytes behind those of a file. The file is made if it is missing; a directory
takes no bytes. -/
def append (files : Files) (now : Nat) (location : Location) (bytes : List UInt8) :
    Option Files :=
  match files.get? location with
  | some (.directory _) => none
  | some (.file old _) => some (files.put location (.file (old ++ bytes) now))
  | none => some (files.put location (.file bytes now))

/-- The names in a directory with what stands there. -/
def children (files : Files) (location : Location) : List (Name × Node) :=
  files.nodes.filterMap fun (place, node) =>
    match place.reverse with
    | [] => none
    | name :: parent => if parent.reverse = location then some (name, node) else none

/-- The place that a path leads to from a directory, if something stands there. Every place on the
way has to be a directory; two dots lead to the directory above. -/
def walk (files : Files) (location : Location) : List Name → Option Location
  | [] => if (files.get? location).isSome then some location else none
  | name :: rest =>
    if !files.isDirectory location then none
    else if name = ['.', '.'] then walk files location.dropLast rest
    else walk files (location ++ [name]) rest

/-- The most bytes of a name that can be looked up in a directory. -/
def maxName : Nat := 255

/-- A name on the way is too long to be looked up. Behind a place that is no directory no name is
looked up any more. -/
def meetsLongName (files : Files) (location : Location) : List Name → Bool
  | [] => false
  | name :: rest =>
    if !files.isDirectory location then false
    else if name = ['.', '.'] then meetsLongName files location.dropLast rest
    else (Text.Utf8.encode name).length > maxName || meetsLongName files (location ++ [name]) rest

theorem find?_putNode (location other : Location) (node : Node)
    (nodes : List (Location × Node)) :
    (putNode location node nodes).find? (fun entry => entry.1 = other) =
      if other = location then some (location, node)
      else nodes.find? fun entry => entry.1 = other := by
  induction nodes with
  | nil => by_cases h : other = location <;> simp [putNode, h, eq_comm]
  | cons entry rest ih =>
    obtain ⟨place, old⟩ := entry
    by_cases hp : place = location
    · by_cases ho : other = location
      · simp [putNode, hp, ho]
      · simp [putNode, hp, ho, Ne.symm ho]
    · by_cases hpo : place = other
      · subst hpo
        simp [putNode, hp]
      · simp [putNode, hp, hpo, ih]

/-- Only the place that was put is changed. -/
theorem get?_put (files : Files) (location other : Location) (node : Node)
    (h : location ≠ []) :
    (files.put location node).get? other =
      if other = location then some node else files.get? other := by
  by_cases hn : other = []
  · subst hn
    simp [get?, Ne.symm h]
  · simp only [get?, put, find?_putNode, hn, if_false]
    by_cases ho : other = location <;> simp [ho]

end Files

end CompactShell.Host
