import TagCatalog.Instant.Text
import TagCatalog.Text.Hex
import TagCatalog.Toml.Basic

/-! The TOML values that are written without quotes or brackets: integers, floats, booleans, dates
and times. Each is one run of letters, digits and signs, but for a blank between date and time. -/

namespace TagCatalog.Toml

open Instant (twoDigits?)

def isRun (isDigit : Char → Bool) : List Char → Bool
  | [] => false
  | [c] => isDigit c
  | c :: '_' :: cs => isDigit c && isRun isDigit cs
  | c :: cs => isDigit c && isRun isDigit cs

def withoutUnderscores (cs : List Char) : List Char := cs.filter (· != '_')

/-- Whether there is a minus sign, and what follows a sign of either kind. -/
def splitSign : List Char → Bool × List Char
  | '-' :: cs => (true, cs)
  | '+' :: cs => (false, cs)
  | cs => (false, cs)

def isWhole : List Char → Bool
  | ['0'] => true
  | '0' :: _ => false
  | cs => isRun Char.isDigit cs

def inRange? (n : Int) : Option Int := if -2 ^ 63 ≤ n ∧ n < 2 ^ 63 then some n else none

def decimal? (cs : List Char) : Option Int :=
  let (negative, digits) := splitSign cs
  let n := Nat.ofDigitChars 10 (withoutUnderscores digits) 0
  if isWhole digits then inRange? (if negative then -n else n) else none

def isHexDigit (c : Char) : Bool := (Text.hexDigit? c).isSome

def isOctalDigit (c : Char) : Bool := '0' ≤ c && c ≤ '7'

def isBinaryDigit (c : Char) : Bool := c = '0' || c = '1'

def integer? : List Char → Option Int
  | '0' :: 'x' :: cs =>
    if isRun isHexDigit cs then (Text.ofHex? (withoutUnderscores cs)).bind fun n => inRange? n
    else none
  | '0' :: 'o' :: cs =>
    if isRun isOctalDigit cs then inRange? (Nat.ofDigitChars 8 (withoutUnderscores cs) 0) else none
  | '0' :: 'b' :: cs =>
    if isRun isBinaryDigit cs then inRange? (Nat.ofDigitChars 2 (withoutUnderscores cs) 0)
    else none
  | cs => decimal? cs

/-- Whether `m * 10 ^ e` is nearer to infinity than to the greatest double. -/
def exceedsDouble (m : Nat) (e : Int) : Bool :=
  let places := (Nat.toDigits 10 m).length + e
  if m = 0 || places < 300 then false
  else if 320 < places then true
  else (2 ^ 1024 - 2 ^ 970) * 10 ^ (-e).toNat ≤ m * 10 ^ e.toNat

/-- The digits after the point; none at all if there is no point. -/
def fractionDigits? : List Char → Option (List Char)
  | [] => some []
  | '.' :: cs => if isRun Char.isDigit cs then some (withoutUnderscores cs) else none
  | _ => none

def exponentValue? : List Char → Option Int
  | [] => some 0
  | _ :: cs =>
    let (negative, digits) := splitSign cs
    let n := Nat.ofDigitChars 10 (withoutUnderscores digits) 0
    if isRun Char.isDigit digits then some (if negative then -n else n) else none

def isExponentMark (c : Char) : Bool := c = 'e' || c = 'E'

/-- A whole part with a fraction, an exponent or both. A positive one has to round to a finite
double. -/
def isDecimalFloat (cs : List Char) : Bool :=
  let (negative, cs) := splitSign cs
  let mantissa := cs.takeWhile (!isExponentMark ·)
  let whole := mantissa.takeWhile (· != '.')
  match fractionDigits? (mantissa.drop whole.length), exponentValue? (cs.drop mantissa.length) with
  | some fraction, some e =>
    isWhole whole && whole.length < cs.length &&
      (negative || !exceedsDouble
        (Nat.ofDigitChars 10 (withoutUnderscores whole ++ fraction) 0) (e - fraction.length))
  | _, _ => false

def isFloat (cs : List Char) : Bool :=
  let unsigned := (splitSign cs).2
  unsigned = ['i', 'n', 'f'] || unsigned = ['n', 'a', 'n'] || isDecimalFloat cs

def mark? (mark : Char) : List Char → Option (List Char)
  | c :: cs => if c = mark then some cs else none
  | [] => none

def afterDate? (cs : List Char) : Option (List Char) := do
  let (century, cs) ← twoDigits? cs
  let (year, cs) ← twoDigits? cs
  let (month, cs) ← twoDigits? (← mark? '-' cs)
  let (day, cs) ← twoDigits? (← mark? '-' cs)
  let date : CivilDate := ⟨100 * century + year, month, day⟩
  if date.isValid then some cs else none

def afterTime? (cs : List Char) : Option (List Char) := do
  let (hour, cs) ← twoDigits? cs
  let (minute, cs) ← twoDigits? (← mark? ':' cs)
  let (second, cs) ← twoDigits? (← mark? ':' cs)
  let (_, cs) ← Instant.fraction? cs
  if hour < 24 && minute < 60 && second ≤ 60 then some cs else none

def isOffset : List Char → Bool
  | [] => false
  | c :: cs =>
    if c = 'Z' || c = 'z' then cs.isEmpty
    else if c = '+' || c = '-' then
      ((twoDigits? cs).any fun (hours, cs) =>
        hours < 24 && (mark? ':' cs).any fun cs =>
          (twoDigits? cs).any fun (minutes, cs) => minutes < 60 && cs.isEmpty)
    else false

def isDate (cs : List Char) : Bool := (afterDate? cs).any (·.isEmpty)

def isTime (cs : List Char) : Bool := (afterTime? cs).any (·.isEmpty)

def isZonedTime (cs : List Char) : Bool :=
  (afterTime? cs).any fun rest => rest.isEmpty || isOffset rest

def isMoment (cs : List Char) : Bool :=
  (afterDate? cs).any fun
    | c :: rest => (c = 'T' || c = 't') && isZonedTime rest
    | [] => false

def isRunChar (c : Char) : Bool :=
  c.isAlphanum || c = '+' || c = '-' || c = '_' || c = '.' || c = ':'

def run (cs : List Char) : List Char × List Char :=
  (cs.takeWhile isRunChar, cs.dropWhile isRunChar)

def blankTime? : List Char → Option (List Char × List Char)
  | ' ' :: cs =>
    let (token, rest) := run cs
    if isZonedTime token then some (token, rest) else none
  | _ => none

def plain? (token rest : List Char) : Option (Toml × List Char) :=
  if token = ['t', 'r', 'u', 'e'] then some (.boolean true, rest)
  else if token = ['f', 'a', 'l', 's', 'e'] then some (.boolean false, rest)
  else if isDate token then
    match blankTime? rest with
    | some (time, rest) => some (.dateTime (String.ofList (token ++ ' ' :: time)), rest)
    | none => some (.dateTime (String.ofList token), rest)
  else if isTime token || isMoment token then some (.dateTime (String.ofList token), rest)
  else if isFloat token then some (.float (String.ofList token), rest)
  else (integer? token).map fun n => (.integer n, rest)

def scalar? (cs : List Char) : Option (Toml × List Char) := plain? (run cs).1 (run cs).2

end TagCatalog.Toml
