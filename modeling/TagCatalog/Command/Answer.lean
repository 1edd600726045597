import TagCatalog.Command.Arguments
import TagCatalog.Json.Printer
import TagCatalog.Record.Catalog
import TagCatalog.Replay
import TagCatalog.Text.Layout

/-! What commands answer, as text for people or in JSON. -/

namespace TagCatalog

structure ReplaySummary where
  file : String
  events : Nat
  operations : Nat
  contents : Nat
  entries : Nat
  topicRows : Nat
  authorRows : Nat
  languages : List String
  created : Nat
  refreshed : Nat
  removed : Nat

namespace ReplaySummary

def ofReplay (file : String) (r : Replay) : ReplaySummary where
  file := file
  events := r.events
  operations := r.operations
  contents := r.ledger.size
  entries := r.catalog.table.size
  topicRows := r.catalog.totals.topicRows.length
  authorRows := r.catalog.totals.authorRows.length
  languages := r.catalog.languages
  created := r.report.created
  refreshed := r.report.refreshed
  removed := r.report.removed

def text (s : ReplaySummary) : String :=
  Text.ofLines [
    "File: " ++ s.file,
    "Events: " ++ toString s.events,
    "Operations: " ++ toString s.operations,
    "Contents: " ++ toString s.contents,
    "Tag entries: " ++ toString s.entries,
    "Tag stats rows: " ++ toString s.topicRows,
    "Author stats rows: " ++ toString s.authorRows,
    "Languages: " ++ ", ".intercalate s.languages,
    "Entries created/refreshed/removed: " ++ toString s.created ++ "/" ++ toString s.refreshed ++
      "/" ++ toString s.removed]

def toJson (s : ReplaySummary) : Json :=
  .obj [("author_stats", .ofNat s.authorRows), ("contents", .ofNat s.contents),
    ("created", .ofNat s.created), ("entries", .ofNat s.entries), ("events", .ofNat s.events),
    ("file", .str s.file), ("languages", .arr (s.languages.map .str)),
    ("operations", .ofNat s.operations), ("refreshed", .ofNat s.refreshed),
    ("removed", .ofNat s.removed), ("tag_stats", .ofNat s.topicRows)]

end ReplaySummary

namespace TopicTotals

def columns (kind name posts comments votes payout : String) : String :=
  " ".intercalate [Text.atLeft 10 kind, Text.atLeft 24 name, Text.atRight 9 posts,
    Text.atRight 9 comments, Text.atRight 10 votes, Text.atRight 14 payout]

def columnHeads : String := columns "TYPE" "NAME" "POSTS" "COMMENTS" "VOTES" "PAYOUT"

def textRow (t : TopicTotals) : String :=
  columns t.topic.kind.name (if t.topic.name.isEmpty then "(none)" else t.topic.name)
    (toString t.topPosts) (toString t.comments) (toString t.netVotes) (toString t.payout)

end TopicTotals

namespace Content

def textRow (c : Content) : String :=
  Text.atRight 6 (toString c.id) ++ "  " ++ c.author ++ "/" ++ c.permlink ++ "  rshares=" ++
    toString c.netRshares.toInt ++ "  created=" ++ c.created.renderOffset

def briefJson (c : Content) : Json :=
  .obj [("author", .str c.author), ("created", .str c.created.renderOffset), ("id", .ofNat c.id),
    ("net_rshares", .ofInt c.netRshares.toInt), ("permlink", .str c.permlink)]

end Content

def Drift.text (d : Drift) : String :=
  "DRIFT " ++ d.kind ++ " \x7b " ++
    ", ".intercalate (d.members.map fun m => m.1 ++ ": " ++ m.2.pretty) ++ " \x7d"

def Audit.text (a : Audit) : String :=
  Text.ofLines (("Entries audited: " ++ toString a.entries) ::
    if a.isConsistent then ["Consistent"] else a.drift.map Drift.text)

inductive Answer
  | replay (summary : ReplaySummary)
  | stats (rows : List TopicTotals)
  | query (contents : List Content)
  | verify (audit : Audit)

namespace Answer

def text : Answer → String
  | .replay summary => summary.text
  | .stats rows => Text.ofLines (TopicTotals.columnHeads :: rows.map TopicTotals.textRow)
  | .query contents => Text.ofLines (contents.map Content.textRow)
  | .verify audit => audit.text

def toJson : Answer → Json
  | .replay summary => summary.toJson
  | .stats rows => .arr (rows.map TopicTotals.toJson)
  | .query contents => .arr (contents.map Content.briefJson)
  | .verify audit => audit.toJson

def print (format : Format) (a : Answer) : String :=
  match format with
  | .text => a.text
  | .json => a.toJson.pretty ++ "\n"

/-- An audit that found drift is answered, but is no success. -/
def exitCode : Answer → Nat
  | .verify audit => if audit.isConsistent then 0 else 5
  | _ => 0

end Answer

end TagCatalog
