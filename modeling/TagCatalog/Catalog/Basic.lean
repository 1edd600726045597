import TagCatalog.Catalog.EntryTable
import TagCatalog.Catalog.Totals

/-! The catalog: entries with the totals kept over them, and what can be read from both. -/

namespace TagCatalog

structure Catalog where
  table : EntryTable := .empty
  totals : Totals := .empty

namespace Catalog

def empty : Catalog := {}

def onTable (m : Update EntryTable α) : Update Catalog α :=
  Update.within Catalog.table (fun c table => { c with table }) m

def onTotals (m : Update Totals α) : Update Catalog α :=
  Update.within Catalog.totals (fun c totals => { c with totals }) m

def entriesOfContent (c : Catalog) (content : Nat) : List Entry :=
  (c.table.idsOfContent content).filterMap c.table.get?

/-- An author's entries, by content. -/
def entriesOfAuthor (c : Catalog) (author : String) : List Entry :=
  (c.table.ofAuthor author).filterMap fun p => c.table.get? p.id

def topicsOfContent (c : Catalog) (content : Nat) : Std.ExtTreeSet Topic :=
  .ofList ((c.entriesOfContent content).map (·.topic))

def hot (c : Catalog) (topic : Topic) (limit : Nat) : List Entry :=
  (c.table.hot topic).take limit

def trending (c : Catalog) (topic : Topic) (limit : Nat) : List Entry :=
  (c.table.trending topic).take limit

def created (c : Catalog) (topic : Topic) (limit : Nat) : List Entry :=
  (c.table.created topic).take limit

def languages (c : Catalog) : List String := c.totals.languages.toList

end Catalog

/-- All that a catalog holds, in order. -/
structure Snapshot where
  entries : List Entry
  topics : List TopicTotals
  authors : List AuthorTotals
  languages : List String

def Catalog.snapshot (c : Catalog) : Snapshot :=
  ⟨c.table.toList, c.totals.topicRows, c.totals.authorRows, c.languages⟩

end TagCatalog
