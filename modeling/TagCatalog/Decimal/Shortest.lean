import TagCatalog.Power

/-! The fewest decimal digits that tell a double from all others. -/

namespace TagCatalog.Decimal

/-- The reals that round to one double, in units: its value and the two ends. The unit is
`num / den`. -/
structure Rounding where
  num : Nat
  den : Nat
  lo : Nat
  value : Nat
  hi : Nat
  closed : Bool

structure Digits where
  digits : Nat
  exponent : Int
  deriving DecidableEq, Repr

namespace Rounding

/-- The double `m * 2 ^ e`. Below a power of two the gap to the next double is halved, unless
that is `least`, where the exponent cannot fall. -/
def ofDouble (m : Nat) (e : Int) (least : Bool) : Rounding where
  num := 2 ^ (e - 2).toNat
  den := 2 ^ (2 - e).toNat
  lo := if m = 2 ^ 52 && !least then 4 * m - 1 else 4 * m - 2
  value := 4 * m
  hi := 4 * m + 2
  closed := m % 2 = 0

def scaled (r : Rounding) (units : Nat) (k : Int) : Nat × Nat :=
  (units * r.num * 10 ^ (-k).toNat, r.den * 10 ^ k.toNat)

def admits (r : Rounding) (k : Int) (d : Nat) : Bool :=
  let (lo, den) := r.scaled r.lo k
  let hi := (r.scaled r.hi k).1
  if r.closed then lo ≤ d * den && d * den ≤ hi else lo < d * den && d * den < hi

/-- The place of the first digit: the value lies below ten to it. -/
def place (r : Rounding) : Int :=
  let whole := r.value * r.num / r.den
  if 0 < whole then (Nat.toDigits 10 whole).length
  else (Nat.toDigits 10 (r.value * r.num * 10 ^ 340 / r.den)).length - 340

/-- The better of the two neighbours of the value on the grid of `10 ^ k`, if one rounds to the
double. Of two equally near the even one is better. -/
def onGrid? (r : Rounding) (k : Int) : Option Digits :=
  let (num, den) := r.scaled r.value k
  let below := num / den
  let above := below + 1
  match r.admits k below, r.admits k above with
  | false, false => none
  | true, false => some ⟨below, k⟩
  | false, true => some ⟨above, k⟩
  | true, true =>
    let twice := 2 * (num % den)
    some ⟨if twice < den || (twice = den && below % 2 = 0) then below else above, k⟩

def shortest (r : Rounding) : Digits :=
  ((List.range 17).findSome? fun n => r.onGrid? (r.place - (n + 1 : Nat))).getD
    ⟨r.value * r.num / r.den, 0⟩

end Rounding

def Digits.split (d : Digits) : List Char × Int :=
  let ds := Nat.toDigits 10 d.digits
  ((ds.reverse.dropWhile (· = '0')).reverse, ds.length + d.exponent)

end TagCatalog.Decimal
