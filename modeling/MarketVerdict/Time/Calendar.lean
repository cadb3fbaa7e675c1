/-!
# Days and dates

Dates of the calendar with leap years, extended to all years, as counts of days since the first day
of 1970. Years are counted in cycles of four hundred that begin in March.
-/

namespace MarketVerdict

structure Date where
  year : Int
  month : Nat
  day : Nat
  deriving DecidableEq

namespace Date

def isLeapYear (y : Int) : Bool := y % 4 == 0 && (y % 100 != 0 || y % 400 == 0)

def monthLength (y : Int) (m : Nat) : Nat :=
  if m = 2 then (if isLeapYear y then 29 else 28)
  else if m = 4 ∨ m = 6 ∨ m = 9 ∨ m = 11 then 30
  else 31

/-- The years that dates may have. -/
def yearRange (y : Int) : Bool := decide (-262143 ≤ y) && decide (y ≤ 262142)

def isValid (d : Date) : Bool :=
  yearRange d.year && decide (1 ≤ d.month) && decide (d.month ≤ 12) && decide (1 ≤ d.day) &&
    decide (d.day ≤ monthLength d.year d.month)

/-- Days from the first day of 1970. -/
def toDays (d : Date) : Int :=
  let y := if d.month ≤ 2 then d.year - 1 else d.year
  let yearOfCycle := y % 400
  let monthFromMarch : Int := ((d.month + 9) % 12 : Nat)
  let dayOfYear := (153 * monthFromMarch + 2) / 5 + d.day - 1
  let dayOfCycle := yearOfCycle * 365 + yearOfCycle / 4 - yearOfCycle / 100 + dayOfYear
  y / 400 * 146097 + dayOfCycle - 719468

def ofDays (days : Int) : Date :=
  let z := days + 719468
  let dayOfCycle := z % 146097
  let yearOfCycle :=
    (dayOfCycle - dayOfCycle / 1460 + dayOfCycle / 36524 - dayOfCycle / 146096) / 365
  let dayOfYear := dayOfCycle - (365 * yearOfCycle + yearOfCycle / 4 - yearOfCycle / 100)
  let monthFromMarch := (5 * dayOfYear + 2) / 153
  let day := dayOfYear - (153 * monthFromMarch + 2) / 5 + 1
  let month := if monthFromMarch < 10 then monthFromMarch + 3 else monthFromMarch - 9
  let year := z / 146097 * 400 + yearOfCycle + if month ≤ 2 then 1 else 0
  ⟨year, month.toNat, day.toNat⟩

end Date

end MarketVerdict
