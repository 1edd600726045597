import Std.Data.ExtTreeSet
import TagCatalog.Json.Reader
import TagCatalog.Settings

/-! The tags and the language that a content item's metadata declares. -/

namespace TagCatalog

abbrev Names := Std.ExtTreeSet String

structure Classification where
  /-- Holds only the empty name when there are no tags. -/
  tags : Names
  /-- Empty when no language is declared. -/
  language : String

namespace Classification

def addUpTo (limit : Nat) : Names → List String → Names
  | tags, [] => tags
  | tags, name :: names =>
    if limit ≤ tags.size then tags else addUpTo limit (tags.insert name) names

/-- The members of a metadata text; none if it is no JSON object. -/
def members (jsonMetadata : String) : List (String × Json) :=
  match Json.read? jsonMetadata with
  | some (.obj ms) => ms
  | _ => []

def isTagSeparator (c : Char) : Bool := Text.isBlank c || c = ','

/-- Tags come as an array of strings, or as one string cut at white space and commas. -/
def tagTexts (members : List (String × Json)) : List String :=
  match Json.member? "tags" members with
  | some (.arr items) => items.filterMap Json.text?
  | some (.str s) => (Text.pieces isTagSeparator s.toList).map String.ofList
  | _ => []

def declaredLanguage (members : List (String × Json)) : String :=
  (((Json.member? "language" members).bind Json.text?).bind normalizeName?).getD ""

/-- The category joins the tags after the cut and so displaces none. -/
def withCategory (s : Settings) (category : String) (tags : Names) : Names :=
  if s.includeCategory then
    match normalizeName? category with
    | some name => tags.insert name
    | none => tags
  else tags

def orUntagged (tags : Names) : Names :=
  if tags.isEmpty then tags.insert "" else tags

def extract (s : Settings) (category jsonMetadata : String) : Classification :=
  let ms := members jsonMetadata
  let declared := addUpTo s.maxTags ∅ ((tagTexts ms).filterMap normalizeName?)
  ⟨orUntagged (withCategory s category declared), declaredLanguage ms⟩

def topics (c : Classification) : List Topic :=
  c.tags.toList.map .tag ++ (if c.language.isEmpty then [] else [.language c.language])

end Classification

end TagCatalog
