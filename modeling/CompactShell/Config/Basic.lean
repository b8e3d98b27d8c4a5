import CompactShell.Rewriter
import CompactShell.Json.Writer

/-!
# Configurations

A configuration may switch rewriting off, let it work through operators, and disable rules. What it
does not set is left to the other scope, so the two switches have three states. There is a single
version of the format.

A configuration comes from the members of a JSON object. `Config.ofMembers?` accepts them or says
what is wrong: the first of the faults of the version and the switches, or all the faults of the
disabled rules.
-/

namespace CompactShell

open Json

structure Config where
  enabled : Option Bool
  throughOperators : Option Bool
  disabledRules : List String
  deriving DecidableEq, Repr

namespace Config

def version : Int := 1

def unset : Config := ⟨none, none, []⟩

/-- Rewriting is on unless it is switched off. -/
def isEnabled (config : Config) : Bool :=
  config.enabled != some false

/-- Operators are in the way unless it is said otherwise. -/
def passesOperators (config : Config) : Bool :=
  config.throughOperators == some true

inductive EntryFault where
  | notText
  | empty
  | unknown (label : String)
  | repeated (label : String)
  deriving DecidableEq, Repr

inductive Fault where
  | noVersion
  | versionType
  | otherVersion (version : Int)
  | switchType (name : String)
  | rulesType
  /-- The entries at some positions of the disabled rules are wrong. -/
  | entries (faults : List (Nat × EntryFault))
  deriving DecidableEq, Repr

/-- What is wrong with an entry, given the labels that were accepted in front of it. -/
def entryFault? (seen : List String) : Value → Option EntryFault
  | .str label =>
    if label.isEmpty then some .empty
    else if !Rule.labels.contains label then some (.unknown label)
    else if seen.contains label then some (.repeated label)
    else none
  | _ => some .notText

/-- The label of an entry that is a text. -/
def labelOf : Value → String
  | .str label => label
  | _ => ""

/-- The wrong entries with their positions, counted on from `position`. -/
def entryFaults (position : Nat) (seen : List String) : List Value → List (Nat × EntryFault)
  | [] => []
  | entry :: rest =>
    match entryFault? seen entry with
    | some fault => (position, fault) :: entryFaults (position + 1) seen rest
    | none => entryFaults (position + 1) (labelOf entry :: seen) rest

/-- The disabled rules that a value lists. -/
def rulesOf? : Value → Except Fault (List String)
  | .arr entries =>
    match entryFaults 0 [] entries with
    | [] => .ok (entries.map labelOf)
    | faults => .error (.entries faults)
  | _ => .error .rulesType

def checkVersion (members : Members) : Except Fault Unit :=
  match members.get? "version" with
  | none => .error .noVersion
  | some (.int n) => if n = version then .ok () else .error (.otherVersion n)
  | some _ => .error .versionType

def switch? (members : Members) (name : String) : Except Fault (Option Bool) :=
  match members.get? name with
  | none => .ok none
  | some (.bool value) => .ok (some value)
  | some _ => .error (.switchType name)

/-- The configuration that the members of an object set. -/
def ofMembers? (members : Members) : Except Fault Config := do
  checkVersion members
  let enabled ← switch? members "enabled"
  let throughOperators ← switch? members "rewrite_through_operators"
  let disabledRules ← rulesOf? ((members.get? "disabled_rules").getD (.arr []))
  return ⟨enabled, throughOperators, disabledRules⟩

def EntryFault.message : EntryFault → String
  | .notText => "must be a string"
  | .empty => "must not be empty"
  | .unknown label => s!"unknown rule '{label}'"
  | .repeated label => s!"duplicate rule '{label}'"

def Fault.message : Fault → String
  | .noVersion => "missing required field 'version'"
  | .versionType => "'version' must be an integer"
  | .otherVersion n =>
    "unsupported version " ++ String.ofList (writeInt n) ++ s!", expected {version}"
  | .switchType name => s!"'{name}' must be a boolean"
  | .rulesType => "'disabled_rules' must be an array"
  | .entries faults =>
    "; ".intercalate <| faults.map fun (position, fault) =>
      s!"disabled_rules[{position}]: {fault.message}"

/-- The configuration of a project over that of the user. The project's switches win where they are
set, and the rules that either disables are disabled. -/
def merge (user project : Config) : Config :=
  { enabled := project.enabled <|> user.enabled
    throughOperators := project.throughOperators <|> user.throughOperators
    disabledRules :=
      user.disabledRules ++
        project.disabledRules.filter fun label => !user.disabledRules.contains label }

/-- The configuration of two scopes, either of which may be missing. -/
def mergeScopes : Option Config → Option Config → Option Config
  | none, project => project
  | user, none => user
  | some user, some project => some (user.merge project)

def settings (config : Config) : List (String × Bool) :=
  [("enabled", config.enabled), ("rewrite_through_operators", config.throughOperators)].filterMap
    fun (name, value) => value.map (name, ·)

end Config

end CompactShell
