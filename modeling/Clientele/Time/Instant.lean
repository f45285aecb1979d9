/-!
Points of time in universal time, and the calendar. A day has 86400 seconds; the nanosecond of a
second reaches the billion and beyond inside a leap second.
-/
set_option autoImplicit false

namespace Clientele.Time

structure Instant where
  /-- Days since the first of January 1970. -/
  day : Int
  second : Fin 86400
  nano : Fin 2000000000
  deriving DecidableEq, Repr

def Instant.compare (a b : Instant) : Ordering :=
  (Ord.compare a.day b.day).then
    ((Ord.compare a.second.val b.second.val).then (Ord.compare a.nano.val b.nano.val))

structure Date where
  year : Int
  month : Nat
  day : Nat
  deriving DecidableEq, Repr

def isLeapYear (y : Int) : Bool := y % 4 = 0 && (y % 100 ≠ 0 || y % 400 = 0)

def daysInMonth (y : Int) (m : Nat) : Nat :=
  if m = 2 then if isLeapYear y then 29 else 28
  else if m = 4 ∨ m = 6 ∨ m = 9 ∨ m = 11 then 30 else 31

def Date.isValid (d : Date) : Bool :=
  1 ≤ d.month && d.month ≤ 12 && 1 ≤ d.day && d.day ≤ daysInMonth d.year d.month

def minYear : Int := -262143
def maxYear : Int := 262142

/-- Days since the first of January 1970. Years are counted from March, so that the leap day is the
last of its year, and in cycles of 400 of them. -/
def Date.toDays (d : Date) : Int :=
  let y := if d.month ≤ 2 then d.year - 1 else d.year
  let m : Nat := if d.month ≤ 2 then d.month + 9 else d.month - 3
  let cycle := y / 400
  let yearOfCycle := y % 400
  let dayOfYear : Int := ((153 * m + 2) / 5 + d.day : Nat) - 1
  cycle * 146097 + (yearOfCycle * 365 + yearOfCycle / 4 - yearOfCycle / 100 + dayOfYear) - 719468

def Date.ofDays (n : Int) : Date :=
  let z := n + 719468
  let cycle := z / 146097
  let dayOfCycle := (z % 146097).toNat
  let yearOfCycle :=
    (dayOfCycle - dayOfCycle / 1460 + dayOfCycle / 36524 - dayOfCycle / 146096) / 365
  let dayOfYear := dayOfCycle - (365 * yearOfCycle + yearOfCycle / 4 - yearOfCycle / 100)
  let m := (5 * dayOfYear + 2) / 153
  let day := dayOfYear - (153 * m + 2) / 5 + 1
  let month := if m < 10 then m + 3 else m - 9
  let year := (yearOfCycle : Int) + cycle * 400
  ⟨if month ≤ 2 then year + 1 else year, month, day⟩

def minDay : Int := Date.toDays ⟨minYear, 1, 1⟩
def maxDay : Int := Date.toDays ⟨maxYear, 12, 31⟩

def Instant.ofMillis? (n : Int) : Option Instant :=
  let seconds := n / 1000
  let day := seconds / 86400
  if minDay ≤ day ∧ day ≤ maxDay then
    some ⟨day, ⟨(seconds % 86400).toNat, by omega⟩, ⟨(n % 1000).toNat * 1000000, by omega⟩⟩
  else none

def Instant.toMillisPrecision (t : Instant) : Instant :=
  ⟨t.day, t.second, ⟨t.nano.val / 1000000 * 1000000, by omega⟩⟩

end Clientele.Time
