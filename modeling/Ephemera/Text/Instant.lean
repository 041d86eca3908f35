import Ephemera.Time

/-! # Instants as text

A reading of the clock is shown as a date and a time of day in the Gregorian calendar, in the
format of RFC 3339 with the offset `+00:00`. The fraction is left out when it is zero.

Days are counted in eras of 400 years that begin on the first of March, so that a leap day is the
last day of its year.
-/

namespace Ephemera.Text

/-- A date of the Gregorian calendar. -/
structure Date where
  year : Nat
  month : Nat
  day : Nat
  deriving DecidableEq, Repr

namespace Date

/-- The days of a 400-year era. -/
def eraDays : Nat := 146097

/-- The days from the first of March of the year 0 to the first of January 1970. -/
def epochDays : Nat := 719468

/-- The date that many days after the first of January 1970. -/
def ofDays (days : Nat) : Date :=
  let shifted := days + epochDays
  let era := shifted / eraDays
  let dayOfEra := shifted % eraDays
  let yearOfEra :=
    (dayOfEra - dayOfEra / 1460 + dayOfEra / 36524 - dayOfEra / 146096) / 365
  let dayOfYear := dayOfEra - (365 * yearOfEra + yearOfEra / 4 - yearOfEra / 100)
  let fromMarch := (5 * dayOfYear + 2) / 153
  let day := dayOfYear - (153 * fromMarch + 2) / 5 + 1
  let month := if fromMarch < 10 then fromMarch + 3 else fromMarch - 9
  let year := yearOfEra + era * 400
  { year := if month ≤ 2 then year + 1 else year, month, day }

end Date

/-- A decimal numeral with at least `width` digits. -/
def padded (width n : Nat) : String :=
  let digits := Nat.toDigits 10 n
  String.ofList (List.replicate (width - digits.length) '0' ++ digits)

/-- The date with its year in four digits; a longer year has a sign. -/
def Date.text (d : Date) : String :=
  let year := if d.year ≤ 9999 then padded 4 d.year else "+" ++ padded 5 d.year
  year ++ "-" ++ padded 2 d.month ++ "-" ++ padded 2 d.day

/-- The reading of the clock as a date and a time of day. -/
def instant (now : Millis) : String :=
  let ms := now.toNat
  let seconds := ms / 1000
  let ofDay := seconds % 86400
  let fraction := ms % 1000
  (Date.ofDays (seconds / 86400)).text ++ "T" ++ padded 2 (ofDay / 3600) ++ ":"
    ++ padded 2 (ofDay / 60 % 60) ++ ":" ++ padded 2 (ofDay % 60)
    ++ (if fraction = 0 then "" else "." ++ padded 3 fraction) ++ "+00:00"

end Ephemera.Text
