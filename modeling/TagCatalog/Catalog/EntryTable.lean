import Std.Data.ExtTreeMap
import Std.Data.ExtTreeSet
import TagCatalog.Catalog.Listing
import TagCatalog.Update

/-! Entries by id with the orders they are listed in: by content, by author, and under their topic
by hot score, by trending score and by time of creation. Topic and content together are unique. -/

namespace TagCatalog

structure EntryTable where
  entries : Std.ExtTreeMap Nat Entry := ∅
  byFiling : Std.ExtTreeMap Filing Nat := ∅
  byContent : Std.ExtTreeSet ContentPlace := ∅
  byAuthor : Std.ExtTreeSet AuthorPlace := ∅
  byHot : Std.ExtTreeSet (TopicPlace Score) := ∅
  byTrending : Std.ExtTreeSet (TopicPlace Score) := ∅
  byCreated : Std.ExtTreeSet (TopicPlace Instant) := ∅
  /-- Never given to an entry before. The ids of 64 bits are taken as never used up: no step past
  the last of them overflows. -/
  nextId : Nat := 0

namespace Entry

def filing (e : Entry) : Filing := ⟨e.topic, e.content⟩

def contentPlace (e : Entry) : ContentPlace := ⟨e.content, e.id⟩

def authorPlace (e : Entry) : AuthorPlace := ⟨e.author, e.content, e.id⟩

def hotPlace (e : Entry) : TopicPlace Score := ⟨e.topic, e.hot, e.id⟩

def trendingPlace (e : Entry) : TopicPlace Score := ⟨e.topic, e.trending, e.id⟩

def createdPlace (e : Entry) : TopicPlace Instant := ⟨e.topic, e.created, e.id⟩

end Entry

namespace EntryTable

def empty : EntryTable := {}

def get? (t : EntryTable) (id : Nat) : Option Entry := t.entries[id]?

def find? (t : EntryTable) (topic : Topic) (content : Nat) : Option Entry :=
  t.byFiling[Filing.mk topic content]?.bind t.get?

def link (e : Entry) (t : EntryTable) : EntryTable :=
  { t with
    byContent := t.byContent.insert e.contentPlace
    byAuthor := t.byAuthor.insert e.authorPlace
    byHot := t.byHot.insert e.hotPlace
    byTrending := t.byTrending.insert e.trendingPlace
    byCreated := t.byCreated.insert e.createdPlace }

def unlink (e : Entry) (t : EntryTable) : EntryTable :=
  { t with
    byContent := t.byContent.erase e.contentPlace
    byAuthor := t.byAuthor.erase e.authorPlace
    byHot := t.byHot.erase e.hotPlace
    byTrending := t.byTrending.erase e.trendingPlace
    byCreated := t.byCreated.erase e.createdPlace }

def put (e : Entry) (t : EntryTable) : EntryTable :=
  { t.link e with entries := t.entries.insert e.id e }

def insert (e : Entry) : Update EntryTable Nat := do
  let t ← get
  if t.byFiling.contains e.filing then
    Update.fail (.duplicateEntry e.topic e.content)
  else
    let id := t.nextId
    set { t.put { e with id } with
      byFiling := t.byFiling.insert e.filing id
      nextId := id + 1 }
    return id

/-- Topic, content and author stay when an entry is replaced. -/
def sameIdentity (a b : Entry) : Bool :=
  a.topic = b.topic && a.content = b.content && a.author = b.author

def replace (e : Entry) : Update EntryTable Unit := do
  let old ← Update.require (.entryMissing e.id) ((← get).get? e.id)
  if sameIdentity old e then modify fun t => (t.unlink old).put e
  else Update.fail (.duplicateEntry e.topic e.content)

def remove (id : Nat) : Update EntryTable Entry := do
  let e ← Update.require (.entryMissing id) ((← get).get? id)
  modify fun t =>
    { t.unlink e with
      entries := t.entries.erase id
      byFiling := t.byFiling.erase e.filing }
  return e

def idsOfContent (t : EntryTable) (content : Nat) : List Nat :=
  (t.byContent.toList.filter (·.content = content)).map (·.id)

def placesFrom [Ord κ] [Std.TransOrd κ] (order : Std.ExtTreeSet κ) (floor : κ) : List κ :=
  order.toList.filter fun p => (compare floor p).isLE

def ofAuthor (t : EntryTable) (author : String) : List AuthorPlace :=
  (placesFrom t.byAuthor ⟨author, 0, 0⟩).takeWhile (·.author = author)

/-- The entries listed under a topic, from the place that the key `top` would have to where another
topic begins. -/
def listed [Ord κ] [Std.TransOrd κ] (t : EntryTable) (order : Std.ExtTreeSet (TopicPlace κ))
    (top : κ) (topic : Topic) : List Entry :=
  ((placesFrom order ⟨topic, top, 0⟩).takeWhile (·.topic = topic)).filterMap fun p => t.get? p.id

/-- Highest hot score first; scores past infinity are not listed. -/
def hot (t : EntryTable) (topic : Topic) : List Entry := t.listed t.byHot .infinity topic

def trending (t : EntryTable) (topic : Topic) : List Entry :=
  t.listed t.byTrending .infinity topic

def created (t : EntryTable) (topic : Topic) : List Entry := t.listed t.byCreated .last topic

def toList (t : EntryTable) : List Entry := t.entries.values

def size (t : EntryTable) : Nat := t.entries.size

end EntryTable

end TagCatalog
