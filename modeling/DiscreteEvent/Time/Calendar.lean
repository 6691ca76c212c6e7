/-
Instants as calendar dates.

Days are counted in the Gregorian calendar, extended in both directions
without end (so there is a year 0, and negative years before it) and without
leap seconds. The calendar repeats after 400 years, which are 146097 days;
`Date.ofDay` works inside one such cycle and counts its years from March, so
that the leap day is the last day of a year.
-/
import DiscreteEvent.Time.Instant

set_option autoImplicit false

namespace DiscreteEvent

/-- A day of the Gregorian calendar; `month` and `day` count from one. -/
structure Date where
  year : Int
  month : Nat
  day : Nat
deriving DecidableEq

namespace Date

/-- Days in 400 years. -/
def daysPerCycle : Int := 146097

/-- Days from 1 March of year 0 to 1 January 1970. -/
def epochDay : Int := 719468

/-- **The date of a day**, counted from 1 January 1970. -/
def ofDay (day : Int) : Date :=
  let shifted := day + epochDay
  let cycle := shifted / daysPerCycle
  let dayOfCycle := (shifted % daysPerCycle).toNat
  -- Take out one day for each leap day before this day of the cycle: every fourth
  -- year has one, but not every hundredth, and the last year of the cycle again.
  let yearOfCycle :=
    (dayOfCycle - dayOfCycle / 1460 + dayOfCycle / 36524 - dayOfCycle / 146096) / 365
  let dayOfYear := dayOfCycle - (365 * yearOfCycle + yearOfCycle / 4 - yearOfCycle / 100)
  -- From March on, five months have 153 days, in the pattern 31, 30, 31, 30, 31.
  let monthFromMarch := (5 * dayOfYear + 2) / 153
  let month := if monthFromMarch < 10 then monthFromMarch + 3 else monthFromMarch - 9
  { year := yearOfCycle + cycle * 400 + (if month ≤ 2 then 1 else 0)
    month := month
    day := dayOfYear - (153 * monthFromMarch + 2) / 5 + 1 }

/-- Year, month and day with at least four, two and two digits; the sign of
a negative year is not counted among its digits. -/
def display (d : Date) : String :=
  (if d.year < 0 then "-" else "") ++ Text.zeroPadded 4 d.year.natAbs
    ++ "-" ++ Text.zeroPadded 2 d.month ++ "-" ++ Text.zeroPadded 2 d.day

end Date

namespace Instant

/-- **Date and time of day**, with the decimals of the second that are needed:
`1970-01-01 00:00:03.5`. -/
def display (t : Instant) : String :=
  let second := t.seconds.toInt
  let ofDay := (second % 86400).toNat
  (Date.ofDay (second / 86400)).display
    ++ " " ++ Text.zeroPadded 2 (ofDay / 3600)
    ++ ":" ++ Text.zeroPadded 2 (ofDay / 60 % 60)
    ++ ":" ++ Text.zeroPadded 2 (ofDay % 60)
    ++ Text.fraction 9 t.nanos

end Instant

end DiscreteEvent
