import CompactShell.Json.Fault
import CompactShell.Text.Hex

/-!
# Strings of JSON

A string holds no control character as it is; a backslash escapes what else cannot stand in it. A
character beyond sixteen bits is escaped as a pair of surrogates.

The readers answer with what they have read and the text that is left.
-/

namespace CompactShell.Json

open Text

/-- What a reader makes of a text, with the text that is left. -/
abbrev Read (α : Type) := Except Fault (α × List Char)

/-- The text is not JSON from `rest` on. -/
def malformed {α : Type} (cause : Cause) (rest : List Char) : Except Fault α :=
  .error (.malformed cause rest.length)

/-- What a single letter behind a backslash stands for. -/
def shortEscape? (c : Char) : Option Char :=
  match c with
  | '"' => some '"'
  | '\\' => some '\\'
  | '/' => some '/'
  | 'b' => some '\x08'
  | 'f' => some '\x0c'
  | 'n' => some '\n'
  | 'r' => some '\r'
  | 't' => some '\t'
  | _ => none

/-- The number that the four characters at the start of a text write in hexadecimal. One more
character has to follow. -/
def hexCode? : List Char → Option Nat
  | a :: b :: c :: d :: _ :: _ => do
    let a ← hexValue? a
    let b ← hexValue? b
    let c ← hexValue? c
    let d ← hexValue? d
    return ((a * 16 + b) * 16 + c) * 16 + d
  | _ => none

def isHighSurrogate (code : Nat) : Bool :=
  0xD800 ≤ code && code ≤ 0xDBFF

def isLowSurrogate (code : Nat) : Bool :=
  0xDC00 ≤ code && code ≤ 0xDFFF

/-- The character of a code. Half of a surrogate pair is none; the replacement character stands for
it. -/
def charOfCode (code : Nat) : Char :=
  if isHighSurrogate code || isLowSurrogate code then '\uFFFD' else Char.ofNat code

/-- The character that stands behind a backslash and a `u`, and how many characters of the text
write it: four digits, or six more for the second half of a pair. -/
def unicodeEscape (text : List Char) : Except Fault (Char × Nat) :=
  match hexCode? text with
  | none => .error (.malformed .badUnicodeEscape (text.length + 1))
  | some code =>
    match isHighSurrogate code, text.drop 4 with
    | true, '\\' :: 'u' :: second =>
      if second.length < 5 then .ok (charOfCode code, 4)
      else
        match hexCode? second with
        | none => .error (.malformed .badUnicodeEscape (second.length + 1))
        | some low =>
          if isLowSurrogate low then
            .ok (Char.ofNat (0x10000 + (code - 0xD800) * 0x400 + (low - 0xDC00)), 10)
          else .ok (charOfCode code, 4)
    | _, _ => .ok (charOfCode code, 4)

/-- The character that stands behind a backslash, and how many characters of the text write it. -/
def escape (opening : Nat) : List Char → Except Fault (Char × Nat)
  | [] => .error (.malformed .openString opening)
  | 'u' :: rest => (unicodeEscape rest).map fun (c, size) => (c, size + 1)
  | c :: rest =>
    match shortEscape? c with
    | some d => .ok (d, 1)
    | none => .error (.malformed .badEscape (rest.length + 2))

/-- The rest of a string up to its closing quote. `opening` characters were left at its opening
quote, and the next `skip` characters belong to an escape that is read already. -/
def stringFrom (opening skip : Nat) : List Char → Read (List Char)
  | [] => .error (.malformed .openString opening)
  | c :: rest =>
    match skip with
    | skip + 1 => stringFrom opening skip rest
    | 0 =>
      if c = '"' then .ok ([], rest)
      else if c = '\\' then
        match escape opening rest with
        | .error fault => .error fault
        | .ok (d, size) => (stringFrom opening size rest).map fun (text, rest) => (d :: text, rest)
      else if c.toNat < 0x20 then malformed .control (c :: rest)
      else (stringFrom opening 0 rest).map fun (text, rest) => (c :: text, rest)

def string (text : List Char) : Read String :=
  (stringFrom (text.length + 1) 0 text).map fun (text, rest) => (String.ofList text, rest)

end CompactShell.Json
