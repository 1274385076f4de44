import LiveForm.Number.Fixed

/-!
# Calendar dates

Dates of the Gregorian calendar from year 1 to year 9999, with the count of days that orders
them.  Every `Date` is one that exists.
-/

namespace LiveForm

/-- Every fourth year, but of the full centuries only every fourth. -/
def isLeapYear (year : Nat) : Bool :=
  year % 4 == 0 && (year % 100 != 0 || year % 400 == 0)

/-- The number of days of a month, counted from 1. -/
def daysInMonth (year month : Nat) : Nat :=
  if month = 2 then (if isLeapYear year then 29 else 28)
  else if month = 4 ∨ month = 6 ∨ month = 9 ∨ month = 11 then 30
  else 31

/-- The calendar has this date. -/
def ValidDate (year month day : Nat) : Prop :=
  1 ≤ year ∧ year ≤ 9999 ∧ 1 ≤ month ∧ month ≤ 12 ∧ 1 ≤ day ∧ day ≤ daysInMonth year month

instance (year month day : Nat) : Decidable (ValidDate year month day) :=
  inferInstanceAs (Decidable (_ ∧ _))

/-- A day of the calendar. -/
structure Date where
  year : Nat
  month : Nat
  day : Nat
  valid : ValidDate year month day
  deriving DecidableEq

/-- A time of the day, to the microsecond. -/
structure TimeOfDay where
  hour : Nat
  minute : Nat
  second : Nat
  microsecond : Nat := 0
  deriving DecidableEq

/-- A moment: a date, a time of the day, and how many microseconds the clock is ahead of
universal time, if that is known. -/
structure Moment where
  date : Date
  time : TimeOfDay
  offset : Option Int := none
  deriving DecidableEq

/-- The days of the months before this one. -/
def daysBeforeMonth (year month : Nat) : Nat :=
  (List.range (month - 1)).foldl (fun days m => days + daysInMonth year (m + 1)) 0

/-- The days of the years from year 1 to the one before this one. -/
def daysBeforeYear (year : Nat) : Nat :=
  let y := year - 1
  y * 365 + y / 4 - y / 100 + y / 400

namespace Date

/-- The date, if the calendar has it. -/
def of? (year month day : Nat) : Option Date :=
  if h : ValidDate year month day then some ⟨year, month, day, h⟩ else none

/-- The number of the day, where the first day of year 1 has number 1. -/
def dayNumber (d : Date) : Nat :=
  daysBeforeYear d.year + daysBeforeMonth d.year d.month + d.day

/-- The day of the week, Monday being 0. -/
def weekday (d : Date) : Nat := (d.dayNumber + 6) % 7

/-- The date that many days later, if it is still in year 9999. -/
def addDays? (d : Date) (days : Nat) : Option Date :=
  let rest := d.day + days
  let restOfMonth := daysInMonth d.year d.month
  if rest ≤ restOfMonth then of? d.year d.month rest
  else
    let next := if d.month = 12 then of? (d.year + 1) 1 1 else of? d.year (d.month + 1) 1
    match next with
    | none => none
    | some first => first.addDays? (rest - restOfMonth - 1)
  termination_by days
  decreasing_by
    have := d.valid
    simp only [ValidDate] at this
    omega

/-- The date as year, month and day. -/
def toText (d : Date) : String :=
  String.ofList (paddedDigits d.year 4 ++ '-' :: paddedDigits d.month 2 ++
    '-' :: paddedDigits d.day 2)

end Date

/-- The time of the day as hour, minute, second, and microseconds if there are any. -/
def TimeOfDay.toText (t : TimeOfDay) : String :=
  String.ofList (paddedDigits t.hour 2 ++ ':' :: paddedDigits t.minute 2 ++
    ':' :: paddedDigits t.second 2 ++
    (if t.microsecond = 0 then [] else '.' :: paddedDigits t.microsecond 6))

/-- A distance from universal time as hour and minute, and what is left if anything is. -/
def offsetText (microseconds : Int) : String :=
  let n := microseconds.natAbs
  let seconds := n / 1000000
  let t : TimeOfDay := ⟨seconds / 3600, seconds / 60 % 60, seconds % 60, n % 1000000⟩
  let full := t.toText
  (if microseconds < 0 then "-" else "+") ++
    (if n % 60000000 = 0 then String.ofList (full.toList.take 5) else full)

/-- The microseconds of the day that have gone by. -/
def TimeOfDay.elapsed (t : TimeOfDay) : Nat :=
  ((t.hour * 60 + t.minute) * 60 + t.second) * 1000000 + t.microsecond

/-- The moment in microseconds of universal time, or of the clock if its distance from universal
time is not known. -/
def Moment.instant (m : Moment) : Int :=
  (m.date.dayNumber * 86400000000 + m.time.elapsed : Nat) - m.offset.getD 0

/-- The two are one moment, whatever their clocks show.  A moment by a clock whose distance from
universal time is not known is never one by a clock whose distance is. -/
def Moment.same (m m' : Moment) : Bool :=
  m.offset.isSome == m'.offset.isSome && m.instant == m'.instant

/-- The moment with this mark between date and time. -/
def Moment.toText (m : Moment) (mark : Char) : String :=
  m.date.toText ++ String.singleton mark ++ m.time.toText ++ (m.offset.map offsetText).getD ""

end LiveForm
