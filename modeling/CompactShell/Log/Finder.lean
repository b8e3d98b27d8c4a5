/-!
# Replacing secrets

A `Finder` says whether a secret of its kind starts at a place, what is logged for it and how long
it is. `replaceAll` goes through a text from left to right and goes on behind each secret that it
has found.
-/

namespace CompactShell.Log

/-- A secret that starts at some place of a text. -/
structure Finding where
  /-- What is logged in its place. -/
  shown : List Char
  length : Nat
  deriving DecidableEq, Repr

/-- Looks for a secret at a place, given the character in front of it and the text from it on. -/
abbrev Finder := Option Char → List Char → Option Finding

/-- The text with every secret replaced. The first `skip` characters belong to a secret that is
replaced already. -/
def replaceFrom (find : Finder) (skip : Nat) (before : Option Char) : List Char → List Char
  | [] => []
  | c :: rest =>
    match skip with
    | skip + 1 => replaceFrom find skip (some c) rest
    | 0 =>
      match find before (c :: rest) with
      | some finding => finding.shown ++ replaceFrom find (finding.length - 1) (some c) rest
      | none => c :: replaceFrom find 0 (some c) rest

/-- The text with every secret that the finder knows replaced. -/
def replaceAll (find : Finder) (text : List Char) : List Char :=
  replaceFrom find 0 none text

end CompactShell.Log
