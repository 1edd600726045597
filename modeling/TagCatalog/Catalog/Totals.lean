import Std.Data.ExtTreeMap
import Std.Data.ExtTreeSet
import TagCatalog.Entry
import TagCatalog.Update

/-! Totals by topic and by author, and the languages in use. They change by what one entry
contributes and are never summed up anew. -/

namespace TagCatalog

structure Authorship where
  author : String
  topic : Topic
  deriving DecidableEq, Repr

namespace Authorship

instance : Ord Authorship where
  compare := compareLex (compareOn (·.author)) (compareOn (·.topic))

instance : Std.TransOrd Authorship :=
  inferInstanceAs <| Std.TransCmp
    (compareLex (compareOn Authorship.author) (compareOn Authorship.topic))

instance : Std.LawfulEqOrd Authorship where
  eq_of_compare {a b} h := by
    have h := compareLex_eq_eq.mp h
    have ha := Std.LawfulEqOrd.eq_of_compare (α := String) h.1
    have ht := Std.LawfulEqOrd.eq_of_compare (α := Topic) h.2
    cases a
    cases b
    simp_all

end Authorship

structure Totals where
  topics : Std.ExtTreeMap Topic TopicTotals := ∅
  authors : Std.ExtTreeMap Authorship AuthorTotals := ∅
  languages : Std.ExtTreeSet String := ∅

namespace Totals

def empty : Totals := {}

def topic? (t : Totals) (topic : Topic) : Option TopicTotals := t.topics[topic]?

def author? (t : Totals) (author : String) (topic : Topic) : Option AuthorTotals :=
  t.authors[Authorship.mk author topic]?

def putTopic (topic : Topic) (row : TopicTotals) (t : Totals) : Totals :=
  { t with topics := t.topics.insert topic row }

def putAuthor (key : Authorship) (row : AuthorTotals) (t : Totals) : Totals :=
  { t with authors := t.authors.insert key row }

def ensure (topic : Topic) : Update Totals TopicTotals := do
  match (← get).topic? topic with
  | some row => return row
  | none =>
    let row : TopicTotals := { topic }
    modify (·.putTopic topic row)
    return row

def countPost (e : Entry) (row : TopicTotals) : Update Totals TopicTotals := do
  let childrenRshares2 ← Update.sum 128 row.childrenRshares2 e.childrenRshares2
  let row := { row with childrenRshares2 }
  modify (·.putTopic e.topic row)
  let topPosts ← Update.sum 32 row.topPosts 1
  let row := { row with topPosts }
  modify (·.putTopic e.topic row)
  return row

def countComment (e : Entry) (row : TopicTotals) : Update Totals TopicTotals := do
  let comments ← Update.sum 32 row.comments 1
  let row := { row with comments }
  modify (·.putTopic e.topic row)
  return row

def add (e : Entry) : Update Totals Unit := do
  let row ← ensure e.topic
  let row ← if e.isRoot then countPost e row else countComment e row
  let netVotes ← Update.fits 64 (row.netVotes + e.netVotes.toInt)
  modify (·.putTopic e.topic { row with netVotes })

/-- The row less the counts of an entry; the first counter that would go negative is the fault. -/
def lessCounts (e : Entry) (row : TopicTotals) : Except Fault TopicTotals :=
  if e.isRoot then
    if row.topPosts = 0 then .error (.negativeCounter .topPosts e.topic)
    else if row.childrenRshares2 < e.childrenRshares2 then
      .error (.negativeCounter .childrenRshares2 e.topic)
    else
      .ok { row with
        topPosts := row.topPosts - 1
        childrenRshares2 := row.childrenRshares2 - e.childrenRshares2 }
  else if row.comments = 0 then .error (.negativeCounter .comments e.topic)
  else .ok { row with comments := row.comments - 1 }

def subtract (e : Entry) (row : TopicTotals) : Update Totals TopicTotals := do
  -- All counters are checked before the first is written.
  match lessCounts e row with
  | .error f => Update.fail f
  | .ok row =>
    modify (·.putTopic e.topic row)
    let netVotes ← Update.fits 64 (row.netVotes - e.netVotes.toInt)
    let row := { row with netVotes }
    modify (·.putTopic e.topic row)
    return row

def dropTopic (topic : Topic) (t : Totals) : Totals :=
  { t with
    topics := t.topics.erase topic
    languages := if topic.kind = .language then t.languages.erase topic.name else t.languages }

/-- Take off what an entry contributes. A row that is left vacant goes, and so does its language;
whether it went is the answer. -/
def remove (e : Entry) : Update Totals Bool := do
  let row ← Update.require (.totalsMissing e.topic) ((← get).topic? e.topic)
  let row ← subtract e row
  if row.isVacant then
    modify (·.dropTopic e.topic)
    return true
  else return false

/-- Swap what an entry contributes. The row stays in between, and with it its payout. -/
def replace (old new : Entry) : Update Totals Unit := do
  let row ← Update.require (.totalsMissing old.topic) ((← get).topic? old.topic)
  let _ ← subtract old row
  add new

def addPost (author : String) (topic : Topic) : Update Totals Unit := do
  let key : Authorship := ⟨author, topic⟩
  match (← get).author? author topic with
  | none => modify (·.putAuthor key { author, topic, posts := 1 })
  | some row =>
    let posts ← Update.sum 32 row.posts 1
    modify (·.putAuthor key { row with posts })

def removePost (author : String) (topic : Topic) : Update Totals Unit := do
  let key : Authorship := ⟨author, topic⟩
  let row ← Update.require (.authorTotalsMissing author topic) ((← get).author? author topic)
  if row.posts ≤ 1 then modify fun t => { t with authors := t.authors.erase key }
  else modify (·.putAuthor key { row with posts := row.posts - 1 })

/-- Credit a payout to a topic; whether it has a row is the answer. -/
def addPayout (topic : Topic) (amount : Nat) : Update Totals Bool := do
  match (← get).topic? topic with
  | none => return false
  | some row =>
    let payout ← Update.sum 64 row.payout amount
    modify (·.putTopic topic { row with payout })
    return true

def addRewards (author : String) (topic : Topic) (amount : Nat) : Update Totals Bool := do
  match (← get).author? author topic with
  | none => return false
  | some row =>
    let rewards ← Update.sum 64 row.rewards amount
    modify (·.putAuthor ⟨author, topic⟩ { row with rewards })
    return true

def registerLanguage (name : String) (t : Totals) : Totals :=
  { t with languages := t.languages.insert name }

def topicRows (t : Totals) : List TopicTotals := t.topics.values

def authorRows (t : Totals) : List AuthorTotals := t.authors.values

def rowsOfAuthor (t : Totals) (author : String) : List AuthorTotals :=
  (t.authors.toList.filter (·.1.author = author)).map (·.2)

/-- More top posts come first, then more comments, then the lesser name. -/
def outranks (a b : TopicTotals) : Bool :=
  ((compare b.topPosts a.topPosts).then
    ((compare b.comments a.comments).then (compare a.topic.name b.topic.name))).isLE

def topTags (t : Totals) (limit : Nat) : List TopicTotals :=
  ((t.topicRows.filter (·.topic.kind = .tag)).mergeSort outranks).take limit

end Totals

end TagCatalog
