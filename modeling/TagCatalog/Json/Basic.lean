import TagCatalog.Power

/-! JSON values, and the looser drafts that reading a text yields first. A draft may hold what no
value does: strings with half a surrogate pair, numbers beyond every double, unbounded nesting. -/

namespace TagCatalog

/-- A number in its parts. The digits of `whole` have no needless leading zero, and `fraction`
is empty when there is no point. -/
structure Numeral where
  negative : Bool
  whole : List Char
  fraction : List Char
  exponent : Option Int
  deriving Repr, DecidableEq

namespace Numeral

def ofInt (n : Int) : Numeral :=
  ⟨n < 0, Nat.toDigits 10 n.natAbs, [], none⟩

/-- Only an integer literal is an integer, and minus zero is none. -/
def int? (n : Numeral) : Option Int :=
  let m := Nat.ofDigitChars 10 n.whole 0
  if n.fraction.isEmpty && n.exponent.isNone then
    if n.negative then (if m = 0 then none else some (-m)) else some m
  else none

theorem int?_ofInt (n : Int) : (ofInt n).int? = some n := by
  simp only [int?, ofInt, Nat.ofDigitChars_ten_toDigits, List.isEmpty_nil, Option.isNone_none,
    Bool.and_self, if_true, decide_eq_true_eq]
  split
  · split
    · omega
    · congr 1; omega
  · congr 1; omega

/-- Digits are taken while the significand stays below `2 ^ 64`. Left over are the digits from
the first one that does not fit. -/
def significand : List Char → Nat → Nat × List Char
  | [], s => (s, [])
  | c :: cs, s =>
    let t := 10 * s + (c.toNat - '0'.toNat)
    if t < 2 ^ 64 then significand cs t else (s, c :: cs)

def scaled (n : Numeral) : Nat × Int :=
  let (s, dropped) := significand n.whole 0
  let (s, cut) := significand n.fraction s
  (s, (dropped.length : Int) - (n.fraction.length - cut.length : Nat) + n.exponent.getD 0)

def powerOfTen (e : Nat) : Float := Float.ofScientific 1 false e

/-- Whether the number rounds to a finite double when its first digits are scaled by one power
of ten. -/
def isFinite (n : Numeral) : Bool :=
  let (s, e) := n.scaled
  if s = 0 || e < 0 then true
  else e ≤ 308 && (s.toUInt64.toFloat * powerOfTen e.toNat).isFinite

/-- The double that scaling the first digits gives. Where no double is the power of ten, the digits
are scaled in two steps, and beyond that nothing is left of them. -/
def toFloat (n : Numeral) : Float :=
  let (s, e) := n.scaled
  let x := s.toUInt64.toFloat
  let size :=
    if s = 0 || e < -616 then 0
    else if e < -308 then x / powerOfTen 308 / powerOfTen (-e - 308).toNat
    else if e < 0 then x / powerOfTen (-e).toNat
    else x * powerOfTen e.toNat
  if n.negative then -size else size

def render (n : Numeral) : String :=
  let sign := if n.negative then "-" else ""
  let fraction := if n.fraction.isEmpty then "" else "." ++ String.ofList n.fraction
  let exponent := match n.exponent with
    | none => ""
    | some e => "e" ++ toString e
  sign ++ String.ofList n.whole ++ fraction ++ exponent

end Numeral

inductive Json
  | null
  | bool (b : Bool)
  | num (n : Numeral)
  | str (s : String)
  | arr (items : List Json)
  | obj (members : List (String × Json))

namespace Json

/-- A text's structure before its contents are looked at. A string is missing when a surrogate
escape in it has no partner. -/
inductive Draft
  | null
  | bool (b : Bool)
  | num (n : Numeral)
  | str (s : Option String)
  | arr (items : List Draft)
  | obj (members : List (Option String × Draft))

mutual

def Draft.resolve? (levels : Nat) : Draft → Option Json
  | .null => some .null
  | .bool b => some (.bool b)
  | .num n => if n.isFinite then some (.num n) else none
  | .str s => s.map .str
  | .arr items =>
    match levels with
    | 0 => none
    | levels + 1 => (Draft.resolveItems? levels items).map .arr
  | .obj members =>
    match levels with
    | 0 => none
    | levels + 1 => (Draft.resolveMembers? levels members).map .obj

def Draft.resolveItems? (levels : Nat) : List Draft → Option (List Json)
  | [] => some []
  | d :: ds => do return (← d.resolve? levels) :: (← Draft.resolveItems? levels ds)

def Draft.resolveMembers? (levels : Nat) :
    List (Option String × Draft) → Option (List (String × Json))
  | [] => some []
  | (key, d) :: ds => do return (← key, ← d.resolve? levels) :: (← Draft.resolveMembers? levels ds)

end

/-- The member of that name; of several, the last. -/
def member? (name : String) (members : List (String × Json)) : Option Json :=
  (members.reverse.find? (·.1 = name)).map (·.2)

def text? : Json → Option String
  | .str s => some s
  | _ => none

def bool? : Json → Option Bool
  | .bool b => some b
  | _ => none

def intBetween? (lo hi : Int) : Json → Option Int
  | .num n => n.int?.filter fun i => lo ≤ i && i ≤ hi
  | _ => none

def natBelow? (limit : Nat) : Json → Option Nat
  | .num n => n.int?.bind fun i => if 0 ≤ i ∧ i < limit then some i.toNat else none
  | _ => none

def ofInt (n : Int) : Json := .num (.ofInt n)

def ofNat (n : Nat) : Json := .num (.ofInt n)

end Json

end TagCatalog
