/-! # Times of day

A count of seconds since the start of 1970 as a date and a time. Days are counted from the first of
March of the year 0, so that the day that leap years add is the last one of a year. -/

namespace FlexAudit.Time

structure Date where
  year : Nat
  month : Nat
  day : Nat
  deriving DecidableEq, Repr

/-- The days from the first of March of the year 0 to the start of 1970. -/
def epochDays : Nat := 719468

/-- The days of four hundred years. -/
def eraDays : Nat := 146097

/-- The date of a number of days since the start of 1970. -/
def dateOfDays (days : Nat) : Date :=
  let shifted := days + epochDays
  let dayOfEra := shifted % eraDays
  let yearOfEra := (dayOfEra - dayOfEra / 1460 + dayOfEra / 36524 - dayOfEra / 146096) / 365
  let dayOfYear := dayOfEra - (365 * yearOfEra + yearOfEra / 4 - yearOfEra / 100)
  let shiftedMonth := (5 * dayOfYear + 2) / 153
  let month := if shiftedMonth < 10 then shiftedMonth + 3 else shiftedMonth - 9
  { year := yearOfEra + shifted / eraDays * 400 + (if month ≤ 2 then 1 else 0)
    month := month
    day := dayOfYear - (153 * shiftedMonth + 2) / 5 + 1 }

/-- A number in decimal with zeros in front, `width` digits at least. -/
def padded (width n : Nat) : String :=
  let digits := Nat.toDigits 10 n
  String.ofList (List.replicate (width - digits.length) '0' ++ digits)

/-- The time in universal time, to the second. -/
def render (seconds : Nat) : String :=
  let date := dateOfDays (seconds / 86400)
  let time := seconds % 86400
  padded 4 date.year ++ "-" ++ padded 2 date.month ++ "-" ++ padded 2 date.day ++ "T"
    ++ padded 2 (time / 3600) ++ ":" ++ padded 2 (time / 60 % 60) ++ ":" ++ padded 2 (time % 60)
    ++ "+00:00"

example : render 0 = "1970-01-01T00:00:00+00:00" := by decide +kernel
example : render 951782399 = "2000-02-28T23:59:59+00:00" := by decide +kernel
example : render 951782400 = "2000-02-29T00:00:00+00:00" := by decide +kernel

end FlexAudit.Time
