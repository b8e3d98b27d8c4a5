import CompactShell.Text.Choice
import CompactShell.Text.Digit
import CompactShell.Text.Quoted

/-!
# Arguments of the statistics command

The command takes one argument, a session, and the option `-h` or `--help`. The long option may be
shortened, and short options may share a dash. Behind a `--` every argument is positional. Options
are looked at in order, so help or a misused option ends the reading; arguments that are in no place
are reported once all are read.
-/

namespace CompactShell.Command.Arguments

open Text

inductive Argument where
  | help
  /-- The help option with a value that it does not take. -/
  | helpWith (value : List Char)
  | unknown
  | positional
  deriving DecidableEq, Repr

/-- A negative number: it looks like an option but is none. -/
def isNegativeNumber (argument : List Char) : Bool :=
  match argument with
  | '-' :: rest =>
    -- one newline at the end does no harm
    let digits := if rest.getLast? = some '\n' then rest.dropLast else rest
    let behind := digits.dropWhile isDecimal
    (behind.isEmpty && !digits.isEmpty) ||
      (behind.head? == some '.' && behind.length != 1 && behind.tail.all isDecimal)
  | _ => false

/-- What `-h` is together with the letters that share its dash. Each of them has to be an option
itself; from the first that is none, they are a value for the option before them. -/
def sharedDash : List Char → Argument
  | [] => .help
  | 'h' :: letters => sharedDash letters
  | value => .helpWith value

/-- What an argument is when it stands by itself and is not `--`. The letters that share a dash may
stand behind an equals sign too; then at least one letter has to follow. -/
def Argument.ofText (argument : List Char) : Argument :=
  let name := argument.takeWhile (· != '=')
  let value := (argument.dropWhile (· != '=')).tail
  let isLong := startsWith "--" argument && name.isPrefixOf "--help".toList
  if argument = "--".toList || !startsWith "-" argument || argument = ['-'] then .positional
  else if startsWith "-h=" argument then
    if value.isEmpty then .helpWith [] else sharedDash value
  else if isLong then if argument.contains '=' then .helpWith value else .help
  else if startsWith "-h" argument then sharedDash (argument.drop 2)
  else if isNegativeNumber argument || argument.contains ' ' then .positional
  else .unknown

inductive Misuse where
  | unrecognized (arguments : List (List Char))
  | unusedValue (value : List Char)
  deriving DecidableEq, Repr

def Misuse.message : Misuse → String
  | .unrecognized arguments =>
    "unrecognized arguments: " ++ String.ofList ([' '].intercalate arguments)
  | .unusedValue value =>
    "argument -h/--help: ignored explicit argument " ++ String.ofList (Quoted.display value)

/-- What the arguments ask for. -/
inductive Request where
  | help
  /-- The report on a session, or on the one that was active last. -/
  | report (session : Option (List Char))
  deriving DecidableEq, Repr

/-- The request for a report, unless some arguments are in no place. -/
def finish (session : Option (List Char)) (extra : List (List Char)) : Except Misuse Request :=
  if extra.isEmpty then .ok (.report session) else .error (.unrecognized extra)

/-- Reads the arguments on. `session` is the session if it has been given, `extra` the arguments in
no place. A `--` is dropped where the session may stand, or right behind it. -/
def readFrom (session : Option (List Char)) (extra : List (List Char)) :
    List (List Char) → Except Misuse Request
  | [] => finish session extra
  | argument :: rest =>
    if argument = "--".toList then
      match session, rest with
      | some _, _ => finish session (extra ++ argument :: rest)
      | none, [] => finish none extra
      -- what stands behind the dashes is positional, another `--` too
      | none, first :: rest => finish (some first) (extra ++ rest)
    else
      match Argument.ofText argument with
      | .help => .ok .help
      | .helpWith value => .error (.unusedValue value)
      | .unknown => readFrom session (extra ++ [argument]) rest
      | .positional =>
        match session with
        | some _ => readFrom session (extra ++ [argument]) rest
        | none =>
          match rest with
          | [] => finish (some argument) extra
          | next :: more =>
            if next = "--".toList then finish (some argument) (extra ++ more)
            else readFrom (some argument) extra rest

def read (arguments : List (List Char)) : Except Misuse Request :=
  readFrom none [] arguments

end CompactShell.Command.Arguments
