import TagCatalog.Json.Basic
import TagCatalog.Text.Hex

/-! Reading JSON by the grammar of RFC 8259, first into a draft and from there into a value. -/

namespace TagCatalog.Json

def isSpace (c : Char) : Bool :=
  c = ' ' || c = '\n' || c = '\t' || c = '\r'

def skipSpace (cs : List Char) : List Char :=
  cs.dropWhile isSpace

/-- A piece of a string: a character that stands for itself, or a code unit written in hex. -/
inductive Piece
  | char (c : Char)
  | unit (n : Nat)

def escape? : Char → Option Char
  | '"' => some '"'
  | '\\' => some '\\'
  | '/' => some '/'
  | 'b' => some '\x08'
  | 'f' => some '\x0c'
  | 'n' => some '\n'
  | 'r' => some '\r'
  | 't' => some '\t'
  | _ => none

def piecesTo : List Char → Option (List Piece × List Char)
  | [] => none
  | '"' :: cs => some ([], cs)
  | '\\' :: 'u' :: a :: b :: c :: d :: cs => do
    let n ← Text.ofHex? [a, b, c, d]
    let (ps, rest) ← piecesTo cs
    return (.unit n :: ps, rest)
  | '\\' :: e :: cs => do
    let c ← escape? e
    let (ps, rest) ← piecesTo cs
    return (.char c :: ps, rest)
  | c :: cs =>
    if c = '\\' || c < ' ' then none
    else do
      let (ps, rest) ← piecesTo cs
      return (.char c :: ps, rest)

def isHighSurrogate (n : Nat) : Bool := 0xD800 ≤ n && n < 0xDC00

def isLowSurrogate (n : Nat) : Bool := 0xDC00 ≤ n && n < 0xE000

/-- The characters that pieces spell; none if half a surrogate pair stands alone. -/
def spell? : List Piece → Option (List Char)
  | [] => some []
  | .char c :: ps => (spell? ps).map (c :: ·)
  | .unit h :: .unit l :: ps =>
    if isHighSurrogate h then
      if isLowSurrogate l then
        (spell? ps).map (Char.ofNat (0x10000 + (h - 0xD800) * 0x400 + (l - 0xDC00)) :: ·)
      else none
    else if isLowSurrogate h then none
    else (spell? (.unit l :: ps)).map (Char.ofNat h :: ·)
  | .unit n :: ps =>
    if isHighSurrogate n || isLowSurrogate n then none
    else (spell? ps).map (Char.ofNat n :: ·)

def stringTail (cs : List Char) : Option (Option String × List Char) :=
  (piecesTo cs).map fun (ps, rest) => ((spell? ps).map String.ofList, rest)

def digits (cs : List Char) : List Char × List Char :=
  (cs.takeWhile Char.isDigit, cs.dropWhile Char.isDigit)

def wholePart? (cs : List Char) : Option (List Char × List Char) :=
  match digits cs with
  | ([], _) => none
  | ('0' :: _ :: _, _) => none
  | part => some part

def fractionPart? : List Char → Option (List Char × List Char)
  | '.' :: cs =>
    match digits cs with
    | ([], _) => none
    | part => some part
  | cs => some ([], cs)

def exponentDigits? (negative : Bool) (cs : List Char) : Option (Option Int × List Char) :=
  match digits cs with
  | ([], _) => none
  | (ds, rest) =>
    let n : Int := Nat.ofDigitChars 10 ds 0
    some (some (if negative then -n else n), rest)

def exponentPart? : List Char → Option (Option Int × List Char)
  | [] => some (none, [])
  | c :: cs =>
    if c = 'e' || c = 'E' then
      match cs with
      | '-' :: cs => exponentDigits? true cs
      | '+' :: cs => exponentDigits? false cs
      | cs => exponentDigits? false cs
    else some (none, c :: cs)

def unsigned? (negative : Bool) (cs : List Char) : Option (Numeral × List Char) := do
  let (whole, cs) ← wholePart? cs
  let (fraction, cs) ← fractionPart? cs
  let (exponent, cs) ← exponentPart? cs
  return (⟨negative, whole, fraction, exponent⟩, cs)

def numeral? : List Char → Option (Numeral × List Char)
  | '-' :: cs => unsigned? true cs
  | cs => unsigned? false cs

mutual

/-- One value from the front of a text; `fuel` bounds the calls, two to a character. -/
def draft? (fuel : Nat) (cs : List Char) : Option (Draft × List Char) :=
  match fuel with
  | 0 => none
  | fuel + 1 =>
    match skipSpace cs with
    | '{' :: cs =>
      match skipSpace cs with
      | '}' :: cs => some (.obj [], cs)
      | cs => (draftMembers? fuel cs).map fun (ms, rest) => (.obj ms, rest)
    | '[' :: cs =>
      match skipSpace cs with
      | ']' :: cs => some (.arr [], cs)
      | cs => (draftItems? fuel cs).map fun (ds, rest) => (.arr ds, rest)
    | '"' :: cs => (stringTail cs).map fun (s, rest) => (.str s, rest)
    | 't' :: 'r' :: 'u' :: 'e' :: cs => some (.bool true, cs)
    | 'f' :: 'a' :: 'l' :: 's' :: 'e' :: cs => some (.bool false, cs)
    | 'n' :: 'u' :: 'l' :: 'l' :: cs => some (.null, cs)
    | cs => (numeral? cs).map fun (n, rest) => (.num n, rest)

def draftItems? (fuel : Nat) (cs : List Char) : Option (List Draft × List Char) :=
  match fuel with
  | 0 => none
  | fuel + 1 => do
    let (d, cs) ← draft? fuel cs
    match skipSpace cs with
    | ',' :: cs =>
      let (ds, rest) ← draftItems? fuel cs
      return (d :: ds, rest)
    | ']' :: cs => return ([d], cs)
    | _ => none

def draftMembers? (fuel : Nat) (cs : List Char) :
    Option (List (Option String × Draft) × List Char) :=
  match fuel with
  | 0 => none
  | fuel + 1 => do
    match skipSpace cs with
    | '"' :: cs =>
      let (key, cs) ← stringTail cs
      match skipSpace cs with
      | ':' :: cs =>
        let (d, cs) ← draft? fuel cs
        match skipSpace cs with
        | ',' :: cs =>
          let (ms, rest) ← draftMembers? fuel cs
          return ((key, d) :: ms, rest)
        | '}' :: cs => return ([(key, d)], cs)
        | _ => none
      | _ => none
    | _ => none

end

def Draft.read? (s : String) : Option Draft := do
  let cs := s.toList
  let (d, rest) ← draft? (2 * cs.length + 2) cs
  if (skipSpace rest).isEmpty then some d else none

def maxLevels : Nat := 127

def read? (s : String) : Option Json :=
  (Draft.read? s).bind (Draft.resolve? maxLevels)

end TagCatalog.Json
