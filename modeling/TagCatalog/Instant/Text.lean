import TagCatalog.Instant.Basic
import TagCatalog.Text.Blank

/-! Instants in writing: dates and times of RFC 3339, printed in one form and read with some
freedom in the width of numbers and in white space. -/

namespace TagCatalog.Instant

def padded (width n : Nat) : String :=
  let ds := Nat.toDigits 10 n
  String.ofList (List.replicate (width - ds.length) '0' ++ ds)

def yearText (year : Int) : String :=
  if 0 ≤ year ∧ year ≤ 9999 then padded 4 year.toNat
  else (if year < 0 then "-" else "+") ++ padded 4 year.natAbs

/-- Three, six or nine digits, whichever is the least that is exact; nothing for zero. -/
def fractionText (nanos : Nat) : String :=
  if nanos = 0 then ""
  else if nanos % 1000000 = 0 then "." ++ padded 3 (nanos / 1000000)
  else if nanos % 1000 = 0 then "." ++ padded 6 (nanos / 1000)
  else "." ++ padded 9 nanos

def dateTime (t : Instant) : String :=
  let date := CivilDate.ofDays (t.seconds / secondsPerDay)
  let ofDay := (t.seconds % secondsPerDay).toNat
  let leap := t.nanos / 1000000000
  yearText date.year ++ "-" ++ padded 2 date.month ++ "-" ++ padded 2 date.day ++ "T" ++
    padded 2 (ofDay / 3600) ++ ":" ++ padded 2 (ofDay / 60 % 60) ++ ":" ++
    padded 2 (ofDay % 60 + leap) ++ fractionText (t.nanos % 1000000000)

def render (t : Instant) : String := t.dateTime ++ "Z"

def renderOffset (t : Instant) : String := t.dateTime ++ "+00:00"

def skipBlank (cs : List Char) : List Char := cs.dropWhile Text.isBlank

def number? (width : Nat) (cs : List Char) : Option (Nat × List Char) :=
  let cs := skipBlank cs
  let ds := (cs.take width).takeWhile Char.isDigit
  if ds.isEmpty then none else some (Nat.ofDigitChars 10 ds 0, cs.drop ds.length)

def year? (cs : List Char) : Option (Int × List Char) :=
  match skipBlank cs with
  | '-' :: cs => (signless cs).map fun (n, rest) => (-(n : Int), rest)
  | '+' :: cs => (signless cs).map fun (n, rest) => (n, rest)
  | cs => (number? 4 cs).map fun (n, rest) => (n, rest)
where
  signless (cs : List Char) : Option (Nat × List Char) :=
    if cs.head?.any Char.isDigit then number? cs.length cs else none

def expect? (mark : Char) (cs : List Char) : Option (List Char) :=
  match skipBlank cs with
  | c :: cs => if c = mark then some cs else none
  | [] => none

/-- Nine digits of a fraction count, further ones are passed over. -/
def fraction? : List Char → Option (Nat × List Char)
  | '.' :: cs =>
    let ds := cs.takeWhile Char.isDigit
    let counted := ds.take 9
    if ds.isEmpty then none
    else some (Nat.ofDigitChars 10 counted 0 * 10 ^ (9 - counted.length), cs.drop ds.length)
  | cs => some (0, cs)

def twoDigits? : List Char → Option (Nat × List Char)
  | a :: b :: cs =>
    if a.isDigit && b.isDigit then some (Nat.ofDigitChars 10 [a, b] 0, cs) else none
  | _ => none

def isColonOrBlank (c : Char) : Bool := c = ':' || Text.isBlank c

def offset? (sign : Int) (cs : List Char) : Option (Int × List Char) := do
  let (hours, cs) ← twoDigits? cs
  let (minutes, cs) ← twoDigits? (cs.dropWhile isColonOrBlank)
  if minutes < 60 then return (sign * (hours * 3600 + minutes * 60 : Nat), cs) else none

def zone? (cs : List Char) : Option (Int × List Char) :=
  match skipBlank cs with
  | c :: cs =>
    if c = 'Z' || c = 'z' then some (0, cs)
    else if c = '+' then offset? 1 cs
    else if c = '-' || c = '−' then offset? (-1) cs
    else if c.toUpper = 'U' then
      match cs with
      | d :: e :: cs => if d.toUpper = 'T' && e.toUpper = 'C' then some (0, cs) else none
      | _ => none
    else none
  | [] => none

def date? (cs : List Char) : Option (CivilDate × List Char) := do
  let (year, cs) ← year? cs
  let (month, cs) ← number? 2 (← expect? '-' cs)
  let (day, cs) ← number? 2 (← expect? '-' cs)
  let date : CivilDate := ⟨year, month, day⟩
  if minYear ≤ year && year ≤ maxYear && date.isValid then return (date, cs) else none

/-- Seconds of the day and nanoseconds; a sixtieth second is a leap second. -/
def time? (cs : List Char) : Option ((Nat × Nat) × List Char) := do
  let (hour, cs) ← number? 2 cs
  let (minute, cs) ← number? 2 (← expect? ':' cs)
  let (second, cs) ← number? 2 (← expect? ':' cs)
  let (nanos, cs) ← fraction? cs
  if hour < 24 && minute < 60 && second ≤ 60 then
    let leap := second / 60
    return ((hour * 3600 + minute * 60 + (second - leap), nanos + leap * 1000000000), cs)
  else none

def separator? : List Char → Option (List Char)
  | c :: cs => if c = 'T' || c = 't' || c = ' ' then some cs else none
  | [] => none

/-- The instant a text names; zones a day or more off are no zones. -/
def read? (s : String) : Option Instant := do
  let (date, cs) ← date? s.toList
  let ((second, nanos), cs) ← time? (← separator? cs)
  let (east, cs) ← zone? cs
  let seconds := date.toDays * secondsPerDay + second - east
  if (skipBlank cs).isEmpty && east.natAbs < secondsPerDay.toNat &&
      first.seconds ≤ seconds && seconds ≤ last.seconds then
    return ⟨seconds, nanos⟩
  else none

end TagCatalog.Instant
