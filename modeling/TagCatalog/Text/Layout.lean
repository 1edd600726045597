/-! Text laid out in lines, and in columns whose width counts characters. -/

namespace TagCatalog.Text

def ofLines (lines : List String) : String := String.join (lines.map (· ++ "\n"))

def blanks (n : Nat) : String := String.ofList (List.replicate n ' ')

def atLeft (width : Nat) (s : String) : String := s ++ blanks (width - s.length)

def atRight (width : Nat) (s : String) : String := blanks (width - s.length) ++ s

end TagCatalog.Text
