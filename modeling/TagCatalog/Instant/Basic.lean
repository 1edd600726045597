import TagCatalog.Power

/-! Instants of Coordinated Universal Time and the proleptic Gregorian calendar that names their
days. -/

namespace TagCatalog

/-- Whole seconds since the first of January 1970, rounded down, and the nanoseconds past them.
A leap second counts as nanoseconds from `10 ^ 9` on of the second before it. -/
structure Instant where
  seconds : Int
  nanos : Nat
  deriving DecidableEq, Repr

namespace Instant

instance : Ord Instant where
  compare := compareLex (compareOn (·.seconds)) (compareOn (·.nanos))

instance : Std.TransOrd Instant :=
  inferInstanceAs <| Std.TransCmp (compareLex (compareOn Instant.seconds) (compareOn Instant.nanos))

instance : Std.LawfulEqOrd Instant where
  eq_of_compare {a b} h := by
    cases a
    cases b
    have h := compareLex_eq_eq.mp h
    simp_all [compareOn]

def epoch : Instant := ⟨0, 0⟩

instance : Inhabited Instant := ⟨epoch⟩

end Instant

structure CivilDate where
  year : Int
  month : Nat
  day : Nat
  deriving DecidableEq, Repr

namespace CivilDate

def isLeapYear (year : Int) : Bool :=
  year % 4 = 0 && (year % 100 != 0 || year % 400 = 0)

def monthLength (year : Int) (month : Nat) : Nat :=
  if month = 2 then (if isLeapYear year then 29 else 28)
  else if month = 4 || month = 6 || month = 9 || month = 11 then 30
  else 31

def isValid (d : CivilDate) : Bool :=
  1 ≤ d.month && d.month ≤ 12 && 1 ≤ d.day && d.day ≤ monthLength d.year d.month

/-- Days from the first of January 1970. Years are counted from March here, so that the leap day
ends its year; 400 of them have 146097 days. -/
def toDays (d : CivilDate) : Int :=
  let year := if d.month ≤ 2 then d.year - 1 else d.year
  let yearOfEra := year % 400
  let dayOfYear := (153 * ((d.month + 9) % 12) + 2) / 5 + d.day - 1
  year / 400 * 146097 + (yearOfEra * 365 + yearOfEra / 4 - yearOfEra / 100 + dayOfYear) - 719468

def ofDays (days : Int) : CivilDate :=
  let shifted := days + 719468
  let dayOfEra := (shifted % 146097).toNat
  let yearOfEra :=
    (dayOfEra - dayOfEra / 1460 + dayOfEra / 36524 - dayOfEra / 146096) / 365
  let dayOfYear := dayOfEra - (365 * yearOfEra + yearOfEra / 4 - yearOfEra / 100)
  let marchMonth := (5 * dayOfYear + 2) / 153
  let month := if marchMonth < 10 then marchMonth + 3 else marchMonth - 9
  let year := shifted / 146097 * 400 + yearOfEra
  ⟨if month ≤ 2 then year + 1 else year, month, dayOfYear - (153 * marchMonth + 2) / 5 + 1⟩

end CivilDate

namespace Instant

def secondsPerDay : Int := 86400

def ofDate (d : CivilDate) : Instant := ⟨d.toDays * secondsPerDay, 0⟩

/-- The years a calendar date may have. -/
def minYear : Int := -262143

def maxYear : Int := 262142

def first : Instant := ofDate ⟨minYear, 1, 1⟩

def last : Instant := ⟨(ofDate ⟨maxYear + 1, 1, 1⟩).seconds - 1, 999999999⟩

end Instant

end TagCatalog
