/-!
# Times of log entries

An entry is stamped with the date and the time of day in UTC, down to the microsecond. Dates are
counted in years that start in March, so that a leap day ends its year.
-/

namespace CompactShell.Log

structure Date where
  year : Nat
  month : Nat
  day : Nat
  deriving DecidableEq, Repr

/-- The date that lies some days after the first of January 1970. Four centuries have 146097 days,
the first of which is taken to be the first of March of the year 0. -/
def Date.ofDays (days : Nat) : Date :=
  let shifted := days + 719468
  let ofEra := shifted % 146097
  -- without the leap days that there have been by then, every year has 365 days
  let yearOfEra := (ofEra - ofEra / 1460 + ofEra / 36524 - ofEra / 146096) / 365
  let ofYear := ofEra - (365 * yearOfEra + yearOfEra / 4 - yearOfEra / 100)
  -- counted from March on, each five months have 153 days
  let marchMonth := (5 * ofYear + 2) / 153
  let month := if marchMonth < 10 then marchMonth + 3 else marchMonth - 9
  { year := yearOfEra + shifted / 146097 * 400 + (if month ≤ 2 then 1 else 0)
    month
    day := ofYear - (153 * marchMonth + 2) / 5 + 1 }

/-- A number with zeros in front up to a width. -/
def padded (width n : Nat) : String :=
  let digits := Nat.toDigits 10 n
  String.ofList (List.replicate (width - digits.length) '0' ++ digits)

/-- The stamp for a time in microseconds since the start of 1970. -/
def stamp (microseconds : Nat) : String :=
  let seconds := microseconds / 1000000
  let date := Date.ofDays (seconds / 86400)
  let fraction := microseconds % 1000000
  let day := "-".intercalate [padded 4 date.year, padded 2 date.month, padded 2 date.day]
  let clock :=
    ":".intercalate
      [padded 2 (seconds / 3600 % 24), padded 2 (seconds / 60 % 60), padded 2 (seconds % 60)]
  day ++ "T" ++ clock ++ (if fraction = 0 then "" else "." ++ padded 6 fraction) ++ "+00:00"

example : stamp 951782400000001 = "2000-02-29T00:00:00.000001+00:00" := by decide

end CompactShell.Log
