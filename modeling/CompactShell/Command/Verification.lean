import CompactShell.Command.Outcome
import CompactShell.Config.Effect

/-!
# The check of configurations

Checks the configuration files that are there, prints what each sets or what is wrong with it, and
then the settings in effect. A failure ends the check at the file that it is met in.
-/

namespace CompactShell.Command.Verification

open Config Host

def title : String := "RTK Rewrite Config"

/-- A configuration file to check. -/
structure Scope where
  name : String
  path : Path

/-- The scopes that have a file, the user's first. -/
def scopes (host : Host) : List Scope :=
  [⟨"User", userPath host⟩, ⟨"Project", projectPath (.ofLocation host.current)⟩].filter
    fun scope => (host.find? scope.path).isSome

/-- The text cut at each semicolon that a space follows. -/
def splitParts : List Char → List (List Char)
  | [] => [[]]
  | ';' :: ' ' :: rest => [] :: splitParts rest
  | c :: rest =>
    match splitParts rest with
    | [] => [[c]]
    | part :: parts => (c :: part) :: parts

/-- Lines numbered from one. -/
def numbered (lines : List String) : List String :=
  lines.mapIdx fun i line => s!"    {i + 1}. {line}"

/-- What is wrong with a file, each fault of its own on a numbered line. -/
def problemLines (problem : Problem) : List String :=
  numbered ((splitParts problem.message.toList).map String.ofList)

def settingLines (config : Config) : List String :=
  config.settings.map (fun (name, value) => s!"  {name}: {value}") ++
    if config.disabledRules.isEmpty then ["  Disabled rules: (none)"]
    else "  Disabled rules:" :: numbered config.disabledRules

def onOff (value : Bool) : String :=
  if value then "on" else "off"

def effectLines (host : Host) (config : Option Config) : List String :=
  let disabled := match config with
    | some config => config.disabledRules
    | none => []
  let throughOperators := isOn (host.variableValue? throughOperatorsVariable) ||
    match config with
    | some config => config.passesOperators
    | none => false
  let active := Rule.labels.countP fun label => !disabled.contains label
  ["Effective settings:",
    "  rewriting: " ++ onOff (isRewriting host config),
    "  rewrite through operators: " ++ onOff throughOperators,
    s!"  active rules: {active} of {Rule.labels.length}"] ++
  if isDisabledBy host then [s!"  ({disableVariable} is set)"] else []

structure Block where
  output : List String
  errors : List String

def Scope.block (scope : Scope) : Except Problem Config → Block
  | .ok config =>
    { output :=
        ["", s!"✓ {scope.name} config: " ++ String.ofList scope.path.text] ++ settingLines config
      errors := [] }
  | .error problem =>
    { output := []
      errors :=
        ["", s!"✗ {scope.name} config: " ++ String.ofList scope.path.text, "  Errors:"] ++
          problemLines problem }

/-- What the checks of some scopes print, up to the first failure. -/
def blocks (host : Host) : List Scope → List Block × Option Failure
  | [] => ([], none)
  | scope :: rest =>
    match checkGiven host scope.path.text with
    | .error failure => ([], some failure)
    | .ok result =>
      let (more, failure) := blocks host rest
      (scope.block result :: more, failure)

def run (host : Host) : Outcome :=
  let files := scopes host
  let (blocks, failure) := blocks host files
  let output :=
    [title, String.ofList (List.replicate title.length '═')] ++
      (if files.isEmpty then ["", "No config files found. Using built-in defaults."] else []) ++
      blocks.flatMap Block.output
  let errors := blocks.flatMap Block.errors
  match failure with
  | some failure => ⟨printed output, printed errors, .error failure⟩
  | none =>
    let output := output ++ [""]
    match inForce? host (some (Path.ofLocation host.current).text) with
    | .error failure => ⟨printed output, printed errors, .error failure⟩
    | .ok config =>
      let output := output ++ effectLines host config
      if blocks.any fun block => !block.errors.isEmpty then
        let errors :=
          errors ++ ["", "Config validation failed. Invalid files are ignored by the hook."]
        ⟨printed output, printed errors, .ok 1⟩
      else if files.isEmpty then ⟨printed output, printed errors, .ok 0⟩
      else ⟨printed (output ++ ["", "All configs valid."]), printed errors, .ok 0⟩

end CompactShell.Command.Verification
