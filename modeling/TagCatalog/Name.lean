import TagCatalog.Text.Blank
import TagCatalog.Text.Lower

/-! Tag and language names in the form the catalog keys them by: trimmed, lower-cased, not empty. -/

namespace TagCatalog

def lowercase (s : String) : String :=
  String.ofList (Text.lower s.toList)

def normalizeName? (s : String) : Option String :=
  match Text.trim s.toList with
  | [] => none
  | cs => some (String.ofList (Text.lower cs))

end TagCatalog
