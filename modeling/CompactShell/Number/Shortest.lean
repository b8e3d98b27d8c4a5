import CompactShell.Number.Binary64

/-!
# The shortest decimal of a number

A binary64 number is written with the fewest digits that read back as the same number, and of the
decimals with that many digits by the nearest one. For each count of digits only the two decimals
next to the number have to be tried.
-/

namespace CompactShell.Number

/-- How many places of the ratio stand in front of the decimal point. For a ratio below a tenth it
is minus the count of zeros right behind the point. -/
def placesBefore (num den : Nat) : Int :=
  if den ≤ num then digitCount (num / den)
  else
    let count := digitCount (den / num)
    if num * tenTo (count - 1) = den then 2 - (count : Int) else 1 - (count : Int)

/-- The two decimals next to a ratio that have `scale` digits behind the point: the one that is not
above it, and the next. The flag tells whether the first is nearer, or as near and even. -/
def neighbours (num den : Nat) (scale : Int) : Decimal × Decimal × Bool :=
  let num := if scale < 0 then num else num * tenTo scale.natAbs
  let den := if scale < 0 then den * tenTo scale.natAbs else den
  let low := num / den
  (⟨low, -scale⟩, ⟨low + 1, -scale⟩, roundRatio num den == low)

/-- The decimal of `digits` digits that reads back as the finite number, if there is one. -/
def readsBack? (significand : Nat) (exponent : Int) (digits : Nat) : Option Decimal :=
  let num := if exponent < 0 then significand else significand * twoTo exponent.natAbs
  let den := if exponent < 0 then twoTo exponent.natAbs else 1
  -- the nearer decimal is tried first, so ties between two that read back are settled
  let reads (decimal : Decimal) : Bool :=
    Binary64.ofDecimal false decimal == .finite false significand exponent
  let (low, high, nearLow) := neighbours num den (digits - placesBefore num den)
  let first := if nearLow then low else high
  let second := if nearLow then high else low
  if reads first then some first else if reads second then some second else none

/-- The shortest decimal that reads back as the finite number. Seventeen digits are enough for
every number. -/
def shortest (significand : Nat) (exponent : Int) : Decimal :=
  if significand = 0 then ⟨0, 0⟩
  else
    let decimal := (List.range 17).findSome? fun count =>
      readsBack? significand exponent (count + 1)
    decimal.getD ⟨0, 0⟩

/-- How a number that has no digits is spelled. -/
structure Spelling where
  nan : String
  infinity : String
  deriving DecidableEq, Repr

/-- The digits of a coefficient without zeros at its end. -/
def significantDigits (coefficient : Nat) : List Char :=
  match ((Nat.toDigits 10 coefficient).reverse.dropWhile (· == '0')).reverse with
  | [] => ['0']
  | digits => digits

/-- A decimal point behind the first `places` digits, with zeros where digits are missing. At least
one digit stands on either side. -/
def positional (digits : List Char) (places : Int) : List Char :=
  let count := places.toNat
  let before := (digits ++ List.replicate (count - digits.length) '0').take count
  let after := List.replicate (-places).toNat '0' ++ digits.drop count
  (if before.isEmpty then ['0'] else before) ++ '.' :: (if after.isEmpty then ['0'] else after)

/-- The first digit, a point in front of the others if there are any, and a power of ten of at
least two digits. -/
def scientific (digits : List Char) (power : Int) : List Char :=
  let head := digits.take 1
  let tail := digits.drop 1
  let size := Nat.toDigits 10 power.natAbs
  head ++ (if tail.isEmpty then [] else '.' :: tail) ++
    'e' :: (if power < 0 then '-' else '+') :: (List.replicate (2 - size.length) '0' ++ size)

/-- A decimal is written positionally from a ten thousandth up and below ten to the sixteenth. -/
def Decimal.text (decimal : Decimal) : List Char :=
  let digits := significantDigits decimal.coefficient
  if decimal.coefficient = 0 then positional digits 1
  else
    let places := (digitCount decimal.coefficient : Int) + decimal.exponent
    if -4 < places && places ≤ 16 then positional digits places
    else scientific digits (places - 1)

def Binary64.text (spelling : Spelling) : Binary64 → List Char
  | .nan => spelling.nan.toList
  | .infinite negative => (if negative then ['-'] else []) ++ spelling.infinity.toList
  | .finite negative significand exponent =>
    (if negative then ['-'] else []) ++ (shortest significand exponent).text

end CompactShell.Number
