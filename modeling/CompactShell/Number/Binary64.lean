/-!
# Binary floating point numbers

A number with a fraction or an exponent is kept in the binary64 format: 53 bits of significand and
an exponent of two from -1074 up. Decimals are rounded to the nearest such number, a tie to the one
with an even significand. All of it is exact arithmetic on natural numbers.
-/

namespace CompactShell.Number

/-- A number of the binary64 format. A finite one is `significand * 2 ^ exponent`. -/
inductive Binary64 where
  | nan
  | infinite (negative : Bool)
  | finite (negative : Bool) (significand : Nat) (exponent : Int)
  deriving DecidableEq, Repr

/-- A natural number times a power of ten. -/
structure Decimal where
  coefficient : Nat
  exponent : Int
  deriving DecidableEq, Repr

def twoTo (n : Nat) : Nat := Nat.pow 2 n

def tenTo (n : Nat) : Nat := Nat.pow 10 n

/-- The ratio to the nearest natural number, a tie to the even one. -/
def roundRatio (num den : Nat) : Nat :=
  let quotient := num / den
  let twice := 2 * (num % den)
  if twice > den || (twice == den && quotient % 2 == 1) then quotient + 1 else quotient

/-- The greatest power of two that is at most the ratio, by its exponent. -/
def ratioLog2 (num den : Nat) : Int :=
  -- the difference of the logarithms is right or one too many
  let guess : Int := (num.log2 : Int) - den.log2
  let reached :=
    if guess < 0 then den ≤ num * twoTo guess.natAbs else den * twoTo guess.natAbs ≤ num
  if reached then guess else guess - 1

def digitCount (n : Nat) : Nat :=
  (Nat.toDigits 10 n).length

namespace Binary64

def minExponent : Int := -1074

def maxExponent : Int := 971

def precision : Nat := 53

def zero (negative : Bool) : Binary64 :=
  .finite negative 0 minExponent

/-- The ratio of two positive numbers, rounded. -/
def ofRatio (negative : Bool) (num den : Nat) : Binary64 :=
  let exponent := max (ratioLog2 num den - (precision - 1 : Nat)) minExponent
  let significand :=
    if exponent < 0 then roundRatio (num * twoTo exponent.natAbs) den
    else roundRatio num (den * twoTo exponent.natAbs)
  -- rounding up may need one bit more, and then the significand is a power of two
  let carries := significand = twoTo precision
  let exponent := if carries then exponent + 1 else exponent
  if exponent > maxExponent then .infinite negative
  else .finite negative (if carries then twoTo (precision - 1) else significand) exponent

/-- A decimal, rounded. One of 310 places in front of the point is too large for the format, and one
whose first digit stands 330 places behind it is too small. -/
def ofDecimal (negative : Bool) (decimal : Decimal) : Binary64 :=
  let places := (digitCount decimal.coefficient : Int) + decimal.exponent
  if decimal.coefficient = 0 || places < -330 then zero negative
  else if places > 310 then .infinite negative
  else if decimal.exponent < 0 then
    ofRatio negative decimal.coefficient (tenTo decimal.exponent.natAbs)
  else ofRatio negative (decimal.coefficient * tenTo decimal.exponent.natAbs) 1

def isZero : Binary64 → Bool
  | .finite _ significand _ => significand == 0
  | _ => false

end Binary64

end CompactShell.Number
