import CompactShell.Text.Hex

/-!
# UTF-8

Stored files are bytes. Reading them as text goes byte by byte; a character that has begun is
carried as a `Pending` value which says what the next byte may be, so overlong forms, surrogates
and code points past the last one are refused at the first byte that gives them away.
-/

namespace CompactShell.Text.Utf8

inductive Reason where
  | start
  | continuation
  | ending
  deriving DecidableEq, Repr

/-- The bytes that cannot be read: where they start, the first of them, and how many they are. -/
structure Fault where
  position : Nat
  first : UInt8
  length : Nat
  reason : Reason
  deriving DecidableEq, Repr

/-- A character that has begun. -/
structure Pending where
  first : UInt8
  length : Nat
  code : Nat
  /-- How many bytes are still owed. -/
  owed : Nat
  /-- The least byte that may come next. -/
  low : UInt8
  /-- The greatest byte that may come next. -/
  high : UInt8
  deriving DecidableEq, Repr

/-- What the first byte of a longer character promises. -/
def Pending.ofFirst? (b : UInt8) : Option Pending :=
  let n := b.toNat
  -- bytes that continue a character, and overlong forms of two bytes
  if n < 0xC2 then none
  else if n < 0xE0 then some ⟨b, 1, n - 0xC0, 1, 0x80, 0xBF⟩
  else if n = 0xE0 then some ⟨b, 1, n - 0xE0, 2, 0xA0, 0xBF⟩
  -- the second byte would make a surrogate of it
  else if n = 0xED then some ⟨b, 1, n - 0xE0, 2, 0x80, 0x9F⟩
  else if n < 0xF0 then some ⟨b, 1, n - 0xE0, 2, 0x80, 0xBF⟩
  else if n = 0xF0 then some ⟨b, 1, n - 0xF0, 3, 0x90, 0xBF⟩
  else if n < 0xF4 then some ⟨b, 1, n - 0xF0, 3, 0x80, 0xBF⟩
  else if n = 0xF4 then some ⟨b, 1, n - 0xF0, 3, 0x80, 0x8F⟩
  else none

/-- The character with one more of its bytes read. -/
def Pending.push (p : Pending) (b : UInt8) : Pending :=
  { p with
    length := p.length + 1
    code := p.code * 64 + (b.toNat - 0x80)
    owed := p.owed - 1
    low := 0x80
    high := 0xBF }

/-- Reads on from a byte position, perhaps in the middle of the character that starts there. -/
def decodeFrom (position : Nat) : Option Pending → List UInt8 → Except Fault (List Char)
  | none, [] => .ok []
  | some p, [] => .error ⟨position, p.first, p.length, .ending⟩
  | none, b :: rest =>
    if b < 0x80 then
      (decodeFrom (position + 1) none rest).map (Char.ofNat b.toNat :: ·)
    else
      match Pending.ofFirst? b with
      | none => .error ⟨position, b, 1, .start⟩
      | some p => decodeFrom position (some p) rest
  | some p, b :: rest =>
    if b < p.low || p.high < b then .error ⟨position, p.first, p.length, .continuation⟩
    else if p.owed ≤ 1 then
      (decodeFrom (position + p.length + 1) none rest).map (Char.ofNat (p.push b).code :: ·)
    else decodeFrom position (some (p.push b)) rest

/-- The text that the bytes hold, or the first bytes that hold none. -/
def decode (bytes : List UInt8) : Except Fault (List Char) :=
  decodeFrom 0 none bytes

/-- The bytes that hold a text. -/
def encode (text : List Char) : List UInt8 :=
  text.flatMap String.utf8EncodeChar

def Reason.message : Reason → String
  | .start => "invalid start byte"
  | .continuation => "invalid continuation byte"
  | .ending => "unexpected end of data"

/-- A single bad byte is shown, a longer part only by its first and last position. -/
def Fault.message (fault : Fault) : String :=
  let place :=
    if fault.length = 1 then
      "byte 0x" ++ String.ofList (hexDigits 2 fault.first.toNat) ++
        s!" in position {fault.position}"
    else s!"bytes in position {fault.position}-{fault.position + fault.length - 1}"
  "'utf-8' codec can't decode " ++ place ++ ": " ++ fault.reason.message

end CompactShell.Text.Utf8
