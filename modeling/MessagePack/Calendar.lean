/-!
# The proleptic Gregorian calendar

Days are counted from 1970-01-01, in both directions and without an end. The calendar repeats every
400 years, which are 146097 days, and a year is taken to begin with March, so that the day that leap
years add is the last one of a year.

* `Calendar.Date.toDays` and `Calendar.Date.ofDays` convert between a date and its day number;
* `Calendar.LocalTime.toSeconds` is the number of seconds of a date and time of day.

Dates are not the business of the codec, which has a library for them. This module stands for what
that library does, so that date-times can be given and shown as text. No result depends on how days
are counted here: those about instants hold for any number of seconds that a clock may show.
-/

namespace MessagePack

namespace Calendar

/-- The number of seconds of a day. -/
def secondsPerDay : Int :=
  86400

/-- A date. Year 0 exists, and so do negative years. -/
structure Date where
  year : Int
  month : Nat
  day : Nat
  deriving DecidableEq

/-- The number of the first day of the 400 years that begin in March of year 0. -/
def epochShift : Int :=
  719468

/-- The number of days from 1970-01-01 to a date. -/
def Date.toDays (d : Date) : Int :=
  let year := if d.month ≤ 2 then d.year - 1 else d.year
  let era := year / 400
  let yearOfEra := year % 400
  let monthFromMarch : Int := (d.month + 9) % 12
  let dayOfYear := (153 * monthFromMarch + 2) / 5 + d.day - 1
  let dayOfEra := yearOfEra * 365 + yearOfEra / 4 - yearOfEra / 100 + dayOfYear
  era * 146097 + dayOfEra - epochShift

/-- The date of a day number. -/
def Date.ofDays (days : Int) : Date :=
  let shifted := days + epochShift
  let era := shifted / 146097
  let dayOfEra := shifted % 146097
  let yearOfEra :=
    (dayOfEra - dayOfEra / 1460 + dayOfEra / 36524 - dayOfEra / 146096) / 365
  let dayOfYear := dayOfEra - (365 * yearOfEra + yearOfEra / 4 - yearOfEra / 100)
  let monthFromMarch := (5 * dayOfYear + 2) / 153
  let day := dayOfYear - (153 * monthFromMarch + 2) / 5 + 1
  let month := if monthFromMarch < 10 then monthFromMarch + 3 else monthFromMarch - 9
  let year := yearOfEra + era * 400
  ⟨if month ≤ 2 then year + 1 else year, month.toNat, day.toNat⟩

/-- A date and a time of day as a clock shows them, with no time zone. A leap second is the 59th
second with a nanosecond of at least one second. -/
structure LocalTime where
  date : Date
  hour : Nat
  minute : Nat
  second : Nat
  nanosecond : Nat
  deriving DecidableEq

/-- The number of seconds from the start of 1970-01-01, as if the clock were in UTC. -/
def LocalTime.toSeconds (t : LocalTime) : Int :=
  t.date.toDays * secondsPerDay + t.hour * 3600 + t.minute * 60 + t.second

/-- The date and time of day of a number of seconds, and a nanosecond. -/
def LocalTime.ofSeconds (seconds : Int) (nanosecond : Nat) : LocalTime :=
  let secondOfDay := (seconds % secondsPerDay).toNat
  { date := .ofDays (seconds / secondsPerDay)
    hour := secondOfDay / 3600
    minute := secondOfDay / 60 % 60
    second := secondOfDay % 60
    nanosecond := nanosecond }

/-! ## Text -/

/-- A number in decimal with at least `width` digits. -/
def padded (width n : Nat) : String :=
  let digits := toString n
  String.ofList (List.replicate (width - digits.length) '0') ++ digits

/-- A year with at least four digits, and with a sign in front if it is not one of 0 to 9999. -/
def renderYear (year : Int) : String :=
  if 0 ≤ year ∧ year ≤ 9999 then padded 4 year.toNat
  else if year < 0 then "-" ++ padded 4 year.natAbs
  else "+" ++ padded 4 year.natAbs

/-- A fraction of a second with the fewest of 0, 3, 6 or 9 digits that lose nothing. -/
def renderFraction (nanosecond : Nat) : String :=
  if nanosecond = 0 then ""
  else if nanosecond % 1000000 = 0 then "." ++ padded 3 (nanosecond / 1000000)
  else if nanosecond % 1000 = 0 then "." ++ padded 6 (nanosecond / 1000)
  else "." ++ padded 9 nanosecond

/-- A time in UTC in the notation of RFC 3339. -/
def LocalTime.render (t : LocalTime) : String :=
  renderYear t.date.year ++ "-" ++ padded 2 t.date.month ++ "-" ++ padded 2 t.date.day ++ "T"
    ++ padded 2 t.hour ++ ":" ++ padded 2 t.minute ++ ":" ++ padded 2 t.second
    ++ renderFraction t.nanosecond ++ "+00:00"

end Calendar

end MessagePack
