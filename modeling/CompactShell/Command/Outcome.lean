import CompactShell.Failure

/-!
# Outcomes of commands

What a command prints, on its output and for its errors, and how it ends: with a status, or with a
failure that keeps what was printed before.
-/

namespace CompactShell.Command

/-- What a command leaves behind. -/
structure Outcome where
  output : String
  errors : String
  ending : Except Failure Nat

/-- Each line with its end. -/
def printed (lines : List String) : String :=
  String.join (lines.map (· ++ "\n"))

end CompactShell.Command
