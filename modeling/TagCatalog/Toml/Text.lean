import TagCatalog.Text.Hex

/-! Quoted text in TOML: between double quotes with escapes or between single quotes without, on
one line or, with the quotes tripled, on several. -/

namespace TagCatalog.Toml

structure Quoting where
  mark : Char
  escapes : Bool
  multiline : Bool
  deriving DecidableEq, Repr

def isTextChar (c : Char) : Bool := c = '\t' || (' ' ≤ c && c != '\x7f')

def isSpace (c : Char) : Bool := c = ' ' || c = '\t'

def newline? : List Char → Option (List Char)
  | '\n' :: cs => some cs
  | '\r' :: '\n' :: cs => some cs
  | _ => none

def skipBlankLines : List Char → List Char
  | '\r' :: '\n' :: cs => skipBlankLines cs
  | c :: cs => if isSpace c || c = '\n' then skipBlankLines cs else c :: cs
  | [] => []

def scalarValue? (n : Nat) : Option Char :=
  if n.isValidChar then some (Char.ofNat n) else none

def hexEscape? (width : Nat) (cs : List Char) : Option (Char × List Char) := do
  let digits := cs.take width
  let c ← scalarValue? (← Text.ofHex? digits)
  if digits.length = width then some (c, cs.drop width) else none

def escape? : List Char → Option (Char × List Char)
  | '"' :: cs => some ('"', cs)
  | '\\' :: cs => some ('\\', cs)
  | 'b' :: cs => some ('\x08', cs)
  | 'f' :: cs => some ('\x0c', cs)
  | 'n' :: cs => some ('\n', cs)
  | 'r' :: cs => some ('\r', cs)
  | 't' :: cs => some ('\t', cs)
  | 'u' :: cs => hexEscape? 4 cs
  | 'U' :: cs => hexEscape? 8 cs
  | _ => none

namespace Quoting

/-- What follows the closing quotes, and up to two more quotes that stand right before the closing
three and belong to the text. -/
def closing? (q : Quoting) (cs : List Char) : Option (List Char × List Char) :=
  let marks := cs.takeWhile (· = q.mark)
  if q.multiline then
    if marks.length < 3 then none
    else
      let extra := min (marks.length - 3) 2
      some (List.replicate extra q.mark, cs.drop (3 + extra))
  else if marks.isEmpty then none
  else some ([], cs.drop 1)

/-- A backslash at the end of a line joins it to the next text. -/
def joined? (q : Quoting) (cs : List Char) : Option (List Char) :=
  match cs with
  | '\\' :: cs =>
    if q.escapes && q.multiline then (newline? (cs.dropWhile isSpace)).map skipBlankLines else none
  | _ => none

def char? (q : Quoting) (cs : List Char) : Option (Char × List Char) :=
  match cs with
  | [] => none
  | c :: rest =>
    if c = '\\' && q.escapes then escape? rest
    else if isTextChar c then some (c, rest)
    else if q.multiline then (newline? cs).map ('\n', ·)
    else none

/-- The text up to the closing quotes; `fuel` is at least the number of characters left. -/
def body? (q : Quoting) : (fuel : Nat) → List Char → Option (List Char × List Char)
  | 0, _ => none
  | fuel + 1, cs =>
    match q.closing? cs with
    | some done => some done
    | none =>
      match q.joined? cs with
      | some cs => body? q fuel cs
      | none => do
        let (c, cs) ← q.char? cs
        let (text, rest) ← body? q fuel cs
        return (c :: text, rest)

def read? (q : Quoting) (cs : List Char) : Option (String × List Char) :=
  (q.body? (cs.length + 1) cs).map fun (text, rest) => (String.ofList text, rest)

end Quoting

def lineText? : List Char → Option (String × List Char)
  | '"' :: cs => Quoting.read? ⟨'"', true, false⟩ cs
  | '\'' :: cs => Quoting.read? ⟨'\'', false, false⟩ cs
  | _ => none

/-- Text of one line or several. A newline right after three opening quotes is dropped. -/
def text? : List Char → Option (String × List Char)
  | '"' :: '"' :: '"' :: cs => Quoting.read? ⟨'"', true, true⟩ ((newline? cs).getD cs)
  | '\'' :: '\'' :: '\'' :: cs => Quoting.read? ⟨'\'', false, true⟩ ((newline? cs).getD cs)
  | cs => lineText? cs

end TagCatalog.Toml
