/-!
# Faults of JSON texts

What cannot be read as JSON is reported by its cause and its place, counted in characters. A fault
remembers how much text was left where it was found; the place follows from that and the whole text.

Some texts are refused whether they are JSON or not: a whole number may have only so many digits,
and arrays and objects may stand in each other only so deep.
-/

namespace CompactShell.Json

inductive Cause where
  | byteOrderMark
  | noValue
  | noName
  | noColon
  | noComma
  | extraText
  | openString
  | control
  | badEscape
  | badUnicodeEscape
  deriving DecidableEq, Repr

/-- What has parts that are values. -/
inductive Nest where
  | array
  | object
  deriving DecidableEq, Repr

/-- Why a text is not read, be it JSON or not. -/
inductive Refusal where
  /-- It has a whole number of too many digits. -/
  | hugeInteger (digits : Nat)
  /-- It has an array or an object where no more of them may be open. -/
  | tooDeep (nest : Nest)
  /-- It has something that takes a call where too many calls are open. -/
  | noCall
  deriving DecidableEq, Repr

inductive Fault where
  /-- It is not JSON; `left` characters are left from the place on. -/
  | malformed (cause : Cause) (left : Nat)
  | refused (refusal : Refusal)
  deriving DecidableEq, Repr

def Cause.message : Cause → String
  | .byteOrderMark => "Unexpected UTF-8 BOM (decode using utf-8-sig)"
  | .noValue => "Expecting value"
  | .noName => "Expecting property name enclosed in double quotes"
  | .noColon => "Expecting ':' delimiter"
  | .noComma => "Expecting ',' delimiter"
  | .extraText => "Extra data"
  | .openString => "Unterminated string starting at"
  | .control => "Invalid control character at"
  | .badEscape => "Invalid \\escape"
  | .badUnicodeEscape => "Invalid \\uXXXX escape"

/-- A place in a text: its line and column, counted from one, and how many characters stand in front
of it. -/
structure Place where
  line : Nat
  column : Nat
  offset : Nat
  deriving DecidableEq, Repr

/-- The place in a text where `left` characters are left. -/
def Place.ofLeft (text : List Char) (left : Nat) : Place :=
  let before := text.take (text.length - left)
  { line := before.count '\n' + 1
    column := (before.reverse.takeWhile (· != '\n')).length + 1
    offset := before.length }

def Cause.report (cause : Cause) (place : Place) : String :=
  s!"{cause.message}: line {place.line} column {place.column} (char {place.offset})"

/-- The most digits that a whole number may have. -/
def maxDigits : Nat := 4300

def Nest.name : Nest → String
  | array => "array"
  | object => "object"

def Refusal.message : Refusal → String
  | hugeInteger digits =>
    s!"Exceeds the limit ({maxDigits} digits) for integer string conversion: value has {digits} " ++
      "digits; use sys.set_int_max_str_digits() to increase the limit"
  | tooDeep nest =>
    s!"maximum recursion depth exceeded while decoding a JSON {nest.name} from a unicode string"
  | noCall => "maximum recursion depth exceeded"

end CompactShell.Json
