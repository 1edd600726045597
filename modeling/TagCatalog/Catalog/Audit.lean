import TagCatalog.Catalog.Basic

/-! The audit counts entries anew and lists where the totals disagree. Payouts are history and are
not audited. -/

namespace TagCatalog

inductive Drift
  | counts (topic : Topic) (expectedPosts actualPosts expectedComments actualComments : Nat)
  /-- A topic has entries and no row. -/
  | missing (topic : Topic)
  /-- A topic has a row and no entries. -/
  | orphan (topic : Topic)
  | author (author : String) (topic : Topic) (expected actual : Nat)
  /-- A language is registered and has no row, or has a row and is not registered. -/
  | language (name : String) (registered : Bool)
  deriving DecidableEq, Repr

structure Audit where
  entries : Nat
  drift : List Drift
  deriving DecidableEq, Repr

def Audit.isConsistent (a : Audit) : Bool := a.drift.isEmpty

structure Tally where
  posts : Nat := 0
  comments : Nat := 0
  deriving DecidableEq, Repr

def Tally.add (e : Entry) (t : Tally) : Tally :=
  if e.isRoot then { t with posts := t.posts + 1 } else { t with comments := t.comments + 1 }

abbrev TopicTallies := Std.ExtTreeMap Topic Tally

abbrev AuthorTallies := Std.ExtTreeMap Authorship Nat

def tallyTopic (m : TopicTallies) (e : Entry) : TopicTallies :=
  m.insert e.topic ((m[e.topic]?.getD {}).add e)

def Entry.authorship (e : Entry) : Authorship := ⟨e.author, e.topic⟩

def tallyAuthor (m : AuthorTallies) (e : Entry) : AuthorTallies :=
  m.insert e.authorship (m[e.authorship]?.getD 0 + 1)

namespace Catalog

def topicDrift (totals : Totals) (topic : Topic) (t : Tally) : Option Drift :=
  match totals.topic? topic with
  | none => some (.missing topic)
  | some row =>
    if row.topPosts = t.posts && row.comments = t.comments then none
    else some (.counts topic t.posts row.topPosts t.comments row.comments)

def orphanDrift (tallies : TopicTallies) (row : TopicTotals) : Option Drift :=
  if tallies.contains row.topic then none else some (.orphan row.topic)

def authorDrift (tallies : AuthorTallies) (row : AuthorTotals) : Option Drift :=
  let expected := tallies[Authorship.mk row.author row.topic]?.getD 0
  if expected = row.posts then none else some (.author row.author row.topic expected row.posts)

def unrecordedDrift (rows : List AuthorTotals) (key : Authorship) (expected : Nat) :
    Option Drift :=
  if rows.any fun row => row.author = key.author && row.topic = key.topic then none
  else some (.author key.author key.topic expected 0)

def registeredDrift (totals : Totals) (name : String) : Option Drift :=
  if (totals.topic? (.language name)).isSome then none else some (.language name true)

def unregisteredDrift (totals : Totals) (row : TopicTotals) : Option Drift :=
  if row.topic.kind = .language && !totals.languages.contains row.topic.name then
    some (.language row.topic.name false)
  else none

def audit (c : Catalog) : Audit :=
  let topics := c.table.toList.foldl tallyTopic ∅
  let authors := c.table.toList.foldl tallyAuthor ∅
  { entries := c.table.size
    drift :=
      topics.toList.filterMap (fun p => topicDrift c.totals p.1 p.2) ++
      c.totals.topicRows.filterMap (orphanDrift topics) ++
      c.totals.authorRows.filterMap (authorDrift authors) ++
      authors.toList.filterMap (fun p => unrecordedDrift c.totals.authorRows p.1 p.2) ++
      c.languages.filterMap (registeredDrift c.totals) ++
      c.totals.topicRows.filterMap (unregisteredDrift c.totals) }

end Catalog

end TagCatalog
