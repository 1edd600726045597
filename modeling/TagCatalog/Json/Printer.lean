import TagCatalog.Json.Basic

/-! JSON in print: one member or item to a line, two spaces to a level, and empty brackets closed
at once. -/

namespace TagCatalog.Json

def hexDigit (n : Nat) : Char := Nat.digitChar (n % 16)

/-- Quotes, backslashes and control characters are escaped, all else stands for itself. -/
def escaped (c : Char) : List Char :=
  match c with
  | '"' => ['\\', '"']
  | '\\' => ['\\', '\\']
  | '\x08' => ['\\', 'b']
  | '\x0c' => ['\\', 'f']
  | '\n' => ['\\', 'n']
  | '\r' => ['\\', 'r']
  | '\t' => ['\\', 't']
  | c =>
    if c < ' ' then ['\\', 'u', '0', '0', hexDigit (c.toNat / 16), hexDigit c.toNat] else [c]

def quoted (s : String) : String :=
  String.ofList ('"' :: s.toList.flatMap escaped ++ ['"'])

def indent (depth : Nat) : String :=
  String.ofList (List.replicate (2 * depth) ' ')

def enclose (depth : Nat) (opening closing : String) (lines : List String) : String :=
  if lines.isEmpty then opening ++ closing
  else opening ++ "\n" ++ ",\n".intercalate (lines.map (indent (depth + 1) ++ ·)) ++ "\n" ++
    indent depth ++ closing

mutual

def prettyAt (depth : Nat) : Json → String
  | .null => "null"
  | .bool b => if b then "true" else "false"
  | .num n => n.render
  | .str s => quoted s
  | .arr items => enclose depth "[" "]" (itemLines (depth + 1) items)
  | .obj members => enclose depth "\x7b" "\x7d" (memberLines (depth + 1) members)

def itemLines (depth : Nat) : List Json → List String
  | [] => []
  | j :: js => prettyAt depth j :: itemLines depth js

def memberLines (depth : Nat) : List (String × Json) → List String
  | [] => []
  | (key, j) :: ms => (quoted key ++ ": " ++ prettyAt depth j) :: memberLines depth ms

end

def pretty (j : Json) : String := prettyAt 0 j

end TagCatalog.Json
