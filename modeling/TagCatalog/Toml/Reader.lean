import TagCatalog.Toml.Number
import TagCatalog.Toml.Text

/-! Reading TOML: a document is cut into statements, and the statements build up its tables. -/

namespace TagCatalog.Toml

def skipSpace (cs : List Char) : List Char := cs.dropWhile isSpace

def skip? (inComment : Bool) : List Char → Option (List Char)
  | [] => some []
  | '\n' :: cs => skip? false cs
  | '\r' :: '\n' :: cs => skip? false cs
  | c :: cs =>
    if inComment then (if isTextChar c then skip? true cs else none)
    else if c = '#' then skip? true cs
    else if isSpace c then skip? false cs
    else some (c :: cs)

def isKeyChar (c : Char) : Bool := c.isAlphanum || c = '-' || c = '_'

def key? (cs : List Char) : Option (String × List Char) :=
  match lineText? cs with
  | some found => some found
  | none =>
    let name := cs.takeWhile isKeyChar
    if name.isEmpty then none else some (String.ofList name, cs.dropWhile isKeyChar)

def path? : (room : Nat) → List Char → Option (List String × List Char)
  | 0, _ => none
  | room + 1, cs => do
    let (key, cs) ← key? (skipSpace cs)
    match skipSpace cs with
    | '.' :: cs =>
      let (path, rest) ← path? room cs
      return (key :: path, rest)
    | cs => return ([key], cs)

def maxKeys : Nat := 79

def pair? (value? : List Char → Option (Toml × List Char)) (cs : List Char) :
    Option ((List String × Toml) × List Char) := do
  let (path, cs) ← path? maxKeys cs
  let (v, rest) ← value? (skipSpace (← mark? '=' cs))
  return ((path, v), rest)

def items? (value? : List Char → Option (Toml × List Char)) :
    (fuel : Nat) → List Char → Option (List Toml × List Char)
  | 0, _ => none
  | fuel + 1, cs => do
    match ← skip? false cs with
    | ']' :: cs => return ([], cs)
    | cs =>
      let (v, cs) ← value? cs
      match ← skip? false cs with
      | ',' :: cs =>
        let (vs, rest) ← items? value? fuel cs
        return (v :: vs, rest)
      | ']' :: cs => return ([v], cs)
      | _ => none

def pairs? (value? : List Char → Option (Toml × List Char)) (items : Items) :
    (fuel : Nat) → List Char → Option (Items × List Char)
  | 0, _ => none
  | fuel + 1, cs => do
    let ((path, v), cs) ← pair? value? cs
    let items ← items.assign v path
    match skipSpace cs with
    | ',' :: cs => pairs? value? items fuel cs
    | '}' :: cs => return (items, cs)
    | _ => none

/-- A value with at most `levels` arrays and inline tables inside one another. -/
def value? (levels : Nat) (cs : List Char) : Option (Toml × List Char) :=
  match cs with
  | '[' :: cs =>
    match levels with
    | 0 => none
    | levels + 1 =>
      (items? (value? levels) (cs.length + 1) cs).map fun (items, rest) => (.array items, rest)
  | '{' :: cs =>
    match levels with
    | 0 => none
    | levels + 1 =>
      match skipSpace cs with
      | '}' :: rest => some (.table .inline [], rest)
      | cs =>
        (pairs? (value? levels) [] (cs.length + 1) cs).map fun (items, rest) =>
          (.table .inline items, rest)
  | cs =>
    match text? cs with
    | some (s, rest) => some (.string s, rest)
    | none => scalar? cs

def maxLevels : Nat := 79

/-- One statement. The brackets of a header stand close together where they are doubled. -/
def statement? : List Char → Option (Statement × List Char)
  | '[' :: '[' :: cs => do
    let (path, cs) ← path? maxKeys cs
    return (.nextHeader path, ← mark? ']' (← mark? ']' cs))
  | '[' :: cs => do
    let (path, cs) ← path? maxKeys cs
    return (.header path, ← mark? ']' cs)
  | cs => (pair? (value? maxLevels) cs).map fun ((path, v), rest) => (.assign path v, rest)

def endsLine (cs : List Char) : Bool :=
  match skipSpace cs with
  | [] => true
  | '#' :: _ => true
  | cs => (newline? cs).isSome

/-- The statements of a text; `fuel` is more than the number of its characters. -/
def statements? : (fuel : Nat) → List Char → Option (List Statement)
  | 0, _ => none
  | fuel + 1, cs => do
    match ← skip? false cs with
    | [] => return []
    | cs =>
      let (statement, cs) ← statement? cs
      if endsLine cs then return statement :: (← statements? fuel cs) else none

def withoutByteOrderMark : List Char → List Char
  | '\uFEFF' :: cs => cs
  | cs => cs

def read? (s : String) : Option Items :=
  let cs := withoutByteOrderMark s.toList
  (statements? (cs.length + 1) cs).bind build?

end TagCatalog.Toml
