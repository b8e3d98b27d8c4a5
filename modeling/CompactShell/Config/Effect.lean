import CompactShell.Config.File

/-!
# The configuration in effect

Two variables of the environment have a say beside the configuration: one switches rewriting off,
the other lets it work through operators. Neither can do the opposite.
-/

namespace CompactShell.Config

/-- A variable's value switches it on: `1`, `true`, `yes` or `on` in any case, with white space
around it. -/
def isOn (value : Option String) : Bool :=
  match value with
  | none => false
  | some value =>
    Text.isOneOf ["1", "true", "yes", "on"] ((Text.trim value.toList).map Char.toLower)

def disableVariable : String := "RTK_REWRITE_DISABLED"

def throughOperatorsVariable : String := "RTK_REWRITE_THROUGH_OPERATORS"

/-- Rewriting is switched off by the environment. -/
def isDisabledBy (host : Host) : Bool :=
  isOn (host.variableValue? disableVariable)

def isRewriting (host : Host) (config : Option Config) : Bool :=
  !isDisabledBy host && config.all isEnabled

def isThroughOperators (host : Host) (config : Option Config) : Bool :=
  isOn (host.variableValue? throughOperatorsVariable) || config.any passesOperators

def disabledIn (config : Option Config) : List String :=
  (config.map disabledRules).getD []

def rewriter (host : Host) (config : Option Config) : Rewriter :=
  .ofRules Rule.table (disabledIn config) (isThroughOperators host config)

end CompactShell.Config
