import CompactShell.Json.String
import CompactShell.Json.Value

/-!
# Numbers of JSON

A number is whole unless a fraction or a power of ten is written, even one that adds nothing. A
point or a power mark without digits is left for what follows the number.
-/

namespace CompactShell.Json

open Number

def natOfDigits (digits : List Char) : Nat :=
  digits.foldl (fun n c => 10 * n + (c.toNat - '0'.toNat)) 0

/-- The digits of a whole number: no zero stands in front of others. -/
def wholeDigits? : List Char → Option (List Char × List Char)
  | '0' :: rest => some (['0'], rest)
  | text =>
    match text.takeWhile Char.isDigit with
    | [] => none
    | digits => some (digits, text.dropWhile Char.isDigit)

/-- The digits behind a decimal point. A point without digits is not taken. -/
def fractionDigits : List Char → List Char × List Char
  | '.' :: rest =>
    match rest.takeWhile Char.isDigit with
    | [] => ([], '.' :: rest)
    | digits => (digits, rest.dropWhile Char.isDigit)
  | text => ([], text)

/-- A power of ten. A mark without digits behind it is not taken. -/
def powerOfTen? (text : List Char) : Option (Int × List Char) :=
  match text with
  | [] => none
  | mark :: rest =>
    if mark = 'e' || mark = 'E' then
      let negative := rest.head? == some '-'
      let unsigned := if negative || rest.head? == some '+' then rest.tail else rest
      match unsigned.takeWhile Char.isDigit with
      | [] => none
      | digits =>
        let size : Int := natOfDigits digits
        some (if negative then -size else size, unsigned.dropWhile Char.isDigit)
    else none

/-- The number that a text without its sign starts with. It is a whole number unless a fraction or a
power of ten is written. -/
def unsignedNumber? (negative : Bool) (text : List Char) : Option (Read Value) :=
  (wholeDigits? text).map fun (whole, rest) =>
    let (fraction, rest) := fractionDigits rest
    match powerOfTen? rest with
    | some (power, rest) =>
      let decimal : Decimal := ⟨natOfDigits (whole ++ fraction), power - fraction.length⟩
      .ok (.real (.ofDecimal negative decimal), rest)
    | none =>
      if !fraction.isEmpty then
        let decimal : Decimal := ⟨natOfDigits (whole ++ fraction), -fraction.length⟩
        .ok (.real (.ofDecimal negative decimal), rest)
      else if whole.length > maxDigits then .error (.refused (.hugeInteger whole.length))
      else
        let size : Int := natOfDigits whole
        .ok (.int (if negative then -size else size), rest)

end CompactShell.Json
