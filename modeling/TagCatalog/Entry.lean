import TagCatalog.Settings

/-! Catalog entries, one for each topic that a content item is filed under, and the totals kept
over them. -/

namespace TagCatalog

structure Entry where
  /-- Given by the table the entry is put into. -/
  id : Nat := 0
  topic : Topic
  content : Nat
  /-- The content replied to; none for a root post. -/
  parent : Option Nat := none
  author : String
  created : Instant
  updated : Instant
  active : Instant
  cashout : Option Instant := none
  netVotes : Int32 := 0
  children : Nat := 0
  netRshares : Int64 := 0
  childrenRshares2 : Nat := 0
  hot : Score
  trending : Score
  deriving DecidableEq, Repr

namespace Entry

def isRoot (e : Entry) : Bool := e.parent.isNone

def ofContent (s : Settings) (topic : Topic) (parent : Option Nat) (c : Content) : Entry where
  topic := topic
  content := c.id
  parent := parent
  author := c.author
  created := c.created
  updated := c.lastUpdate
  active := c.active
  cashout := c.cashoutTime
  netVotes := c.netVotes
  children := c.children
  netRshares := c.netRshares
  childrenRshares2 := c.childrenRshares2
  hot := (s.scores c.netRshares c.created).1
  trending := (s.scores c.netRshares c.created).2

/-- The entry with votes, activity and scores taken anew from its content. Its place (topic,
content, parent, author, time of creation) stays. -/
def refreshed (s : Settings) (c : Content) (e : Entry) : Entry :=
  { e with
    updated := c.lastUpdate
    active := c.active
    cashout := c.cashoutTime
    netVotes := c.netVotes
    children := c.children
    netRshares := c.netRshares
    childrenRshares2 := c.childrenRshares2
    hot := (s.scores c.netRshares c.created).1
    trending := (s.scores c.netRshares c.created).2 }

end Entry

structure TopicTotals where
  topic : Topic
  topPosts : Nat := 0
  comments : Nat := 0
  netVotes : Int := 0
  /-- Summed over root posts only. -/
  childrenRshares2 : Nat := 0
  /-- Rewards ever paid, whatever entries remain. -/
  payout : Nat := 0
  deriving DecidableEq, Repr

def TopicTotals.isVacant (t : TopicTotals) : Bool := t.topPosts = 0 && t.comments = 0

structure AuthorTotals where
  author : String
  topic : Topic
  posts : Nat := 0
  rewards : Nat := 0
  deriving DecidableEq, Repr

end TagCatalog
