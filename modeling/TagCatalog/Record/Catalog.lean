import TagCatalog.Catalog.Audit
import TagCatalog.Decimal.Shortest
import TagCatalog.Instant.Text
import TagCatalog.Json.Basic

/-! Catalogs and audits in JSON. -/

namespace TagCatalog

open Json

namespace Score

/-- A number with a point or an exponent: the fewest digits that read back, written with an
exponent from `10 ^ 16` on and below `10 ^ -5`. -/
def numeral (negative : Bool) (digits : List Char) (place : Int) : Numeral :=
  let zeros (n : Int) := List.replicate n.toNat '0'
  if digits.isEmpty then ⟨negative, ['0'], ['0'], none⟩
  else if digits.length ≤ place ∧ place ≤ 16 then
    ⟨negative, digits ++ zeros (place - digits.length), ['0'], none⟩
  else if 0 < place ∧ place ≤ 16 then
    ⟨negative, digits.take place.toNat, digits.drop place.toNat, none⟩
  else if -5 < place ∧ place ≤ 0 then ⟨negative, ['0'], zeros (-place) ++ digits, none⟩
  else ⟨negative, digits.take 1, digits.drop 1, some (place - 1)⟩

/-- JSON has no infinity and no NaN. -/
def toJson (s : Score) : Json :=
  if infinity.magnitude ≤ s.magnitude then .null
  else if s.magnitude = 0 then .num (numeral s.isNegative [] 0)
  else
    let rounding := Decimal.Rounding.ofDouble s.significand s.exponent (s.exponent = -1074)
    let (digits, place) := rounding.shortest.split
    .num (numeral s.isNegative digits place)

end Score

def Instant.toJson (t : Instant) : Json := .str t.render

def Json.ofOption (f : α → Json) : Option α → Json
  | some a => f a
  | none => .null

def Topic.members (t : Topic) : List (String × Json) :=
  [("tag_type", .str t.kind.name), ("name", .str t.name)]

def Entry.toJson (e : Entry) : Json :=
  .obj ([("id", ofNat e.id)] ++ e.topic.members ++
    [("content", ofNat e.content), ("parent", ofOption ofNat e.parent), ("author", .str e.author),
      ("created", e.created.toJson), ("updated", e.updated.toJson), ("active", e.active.toJson),
      ("cashout", ofOption Instant.toJson e.cashout), ("net_votes", ofInt e.netVotes.toInt),
      ("children", ofNat e.children), ("net_rshares", ofInt e.netRshares.toInt),
      ("children_rshares2", ofNat e.childrenRshares2), ("hot", e.hot.toJson),
      ("trending", e.trending.toJson)])

def TopicTotals.toJson (t : TopicTotals) : Json :=
  .obj (t.topic.members ++
    [("top_posts", ofNat t.topPosts), ("comments", ofNat t.comments),
      ("net_votes", ofInt t.netVotes), ("total_children_rshares2", ofNat t.childrenRshares2),
      ("total_payout", ofNat t.payout)])

def AuthorTotals.toJson (t : AuthorTotals) : Json :=
  .obj ([("author", .str t.author)] ++ t.topic.members ++
    [("total_posts", ofNat t.posts), ("total_rewards", ofNat t.rewards)])

def Snapshot.toJson (s : Snapshot) : Json :=
  .obj [("entries", .arr (s.entries.map Entry.toJson)),
    ("tag_stats", .arr (s.topics.map TopicTotals.toJson)),
    ("author_stats", .arr (s.authors.map AuthorTotals.toJson)),
    ("languages", .arr (s.languages.map fun name => .obj [("name", .str name)]))]

namespace Drift

def kind : Drift → String
  | .counts .. => "TagStats"
  | .missing _ => "MissingTagStats"
  | .orphan _ => "OrphanTagStats"
  | .author .. => "AuthorStats"
  | .language .. => "Language"

def members : Drift → List (String × Json)
  | .counts topic expectedPosts actualPosts expectedComments actualComments =>
    topic.members ++
      [("expected_top_posts", ofNat expectedPosts), ("actual_top_posts", ofNat actualPosts),
        ("expected_comments", ofNat expectedComments), ("actual_comments", ofNat actualComments)]
  | .missing topic | .orphan topic => topic.members
  | .author name topic expected actual =>
    [("author", .str name)] ++ topic.members ++
      [("expected", ofNat expected), ("actual", ofNat actual)]
  | .language name registered => [("name", .str name), ("registered", .bool registered)]

def toJson (d : Drift) : Json := .obj [(d.kind, .obj d.members)]

end Drift

def Audit.toJson (a : Audit) : Json :=
  .obj [("entries", ofNat a.entries), ("drift", .arr (a.drift.map Drift.toJson))]

end TagCatalog
