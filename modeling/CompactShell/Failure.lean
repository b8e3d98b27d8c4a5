import CompactShell.Host.Path
import CompactShell.Json.Fault
import CompactShell.Text.Quoted
import CompactShell.Text.Utf8

/-!
# Failures

Most faults of a configuration or a log are answered for by the command that meets them. The kinds
here are not: they end the command.
-/

namespace CompactShell

open Host Text

inductive Failure where
  /-- A file is no UTF-8. -/
  | notText (fault : Utf8.Fault)
  /-- A JSON text is refused. -/
  | refused (refusal : Json.Refusal)
  /-- A path is too long to be looked up, or a name on it. -/
  | pathTooLong (path : Path)
  /-- A path starts in the home directory of a user who is not known. -/
  | unknownUser
  /-- A path starts in the home directory of a user whose name has a null character. -/
  | nullInUser
  deriving DecidableEq, Repr

def Failure.message : Failure → String
  | .notText fault => fault.message
  | .refused refusal => refusal.message
  | .pathTooLong path =>
    "[Errno 36] File name too long: " ++ String.ofList (Quoted.display path.text)
  | .unknownUser => "Could not determine home directory."
  | .nullInUser => "embedded null byte"

end CompactShell
