import CompactShell.Json.Value
import CompactShell.Number.Shortest
import CompactShell.Text.Hex

/-!
# Writing JSON

A value is written on one line of ASCII, with a space behind each comma and colon and the members
of an object in their order. Every control, the delete character among them, and every character
beyond ASCII is escaped.
-/

namespace CompactShell.Json

open Number Text

/-- How JSON spells the numbers without digits. -/
def spelling : Spelling := ⟨"NaN", "Infinity"⟩

/-- A code of sixteen bits as an escape. -/
def writeCode (code : Nat) : List Char :=
  '\\' :: 'u' :: hexDigits 4 code

/-- A character inside a string. Beyond the sixteen bits of one escape it takes a surrogate pair. -/
def writeChar (c : Char) : List Char :=
  if c = '"' then ['\\', '"']
  else if c = '\\' then ['\\', '\\']
  else if c = '\n' then ['\\', 'n']
  else if c = '\r' then ['\\', 'r']
  else if c = '\t' then ['\\', 't']
  else if c = '\x0c' then ['\\', 'f']
  else if c = '\x08' then ['\\', 'b']
  else if 0x20 ≤ c.toNat ∧ c.toNat < 0x7F then [c]
  else if c.toNat < 0x10000 then writeCode c.toNat
  else
    let offset := c.toNat - 0x10000
    writeCode (0xD800 + offset / 0x400) ++ writeCode (0xDC00 + offset % 0x400)

def writeString (text : List Char) : List Char :=
  '"' :: text.flatMap writeChar ++ ['"']

def writeInt (n : Int) : List Char :=
  (if n < 0 then ['-'] else []) ++ Nat.toDigits 10 n.natAbs

mutual

def write : Value → List Char
  | .null => "null".toList
  | .bool true => "true".toList
  | .bool false => "false".toList
  | .int n => writeInt n
  | .real x => x.text spelling
  | .str s => writeString s.toList
  | .arr items => '[' :: writeItems items
  | .obj members => '\x7b' :: writeMembers members

/-- The items of an array, and its end. -/
def writeItems : List Value → List Char
  | [] => [']']
  | [item] => write item ++ [']']
  | item :: items => write item ++ ',' :: ' ' :: writeItems items

/-- The members of an object, and its end. -/
def writeMembers : List (String × Value) → List Char
  | [] => ['\x7d']
  | [(name, item)] => writeString name.toList ++ ':' :: ' ' :: (write item ++ ['\x7d'])
  | (name, item) :: members =>
    writeString name.toList ++ ':' :: ' ' :: (write item ++ ',' :: ' ' :: writeMembers members)

end

end CompactShell.Json
