import TagCatalog.Instant.Basic

/-! Posts and replies as the ledger keeps them. -/

namespace TagCatalog

structure Address where
  author : String
  permlink : String
  deriving DecidableEq, Repr

namespace Address

instance : Ord Address where
  compare := compareLex (compareOn (·.author)) (compareOn (·.permlink))

instance : Std.TransOrd Address :=
  inferInstanceAs <| Std.TransCmp
    (compareLex (compareOn Address.author) (compareOn Address.permlink))

instance : Std.LawfulEqOrd Address where
  eq_of_compare {a b} h := by
    have h := compareLex_eq_eq.mp h
    have ha := Std.LawfulEqOrd.eq_of_compare (α := String) h.1
    have hp := Std.LawfulEqOrd.eq_of_compare (α := String) h.2
    cases a
    cases b
    simp_all

end Address

/-- A content item. An empty `parentAuthor` marks a root post, whose category stands in
`parentPermlink`. -/
structure Content where
  /-- Given by the ledger, zero before. -/
  id : Nat := 0
  author : String
  permlink : String
  parentAuthor : String := ""
  parentPermlink : String := ""
  created : Instant
  lastUpdate : Instant := .epoch
  active : Instant := .epoch
  /-- The end of the payout window; none once it has closed. -/
  cashoutTime : Option Instant := none
  netVotes : Int32 := 0
  /-- Direct replies, counted by the ledger. -/
  children : Nat := 0
  netRshares : Int64 := 0
  childrenRshares2 : Nat := 0
  /-- Replies above this one, set by the ledger. -/
  depth : Nat := 0
  jsonMetadata : String := ""
  deriving DecidableEq, Repr

namespace Content

def address (c : Content) : Address := ⟨c.author, c.permlink⟩

def isRoot (c : Content) : Bool := c.parentAuthor.isEmpty

def parent? (c : Content) : Option Address :=
  if c.isRoot then none else some ⟨c.parentAuthor, c.parentPermlink⟩

def isOpen (c : Content) : Bool := c.cashoutTime.isSome

def post (address : Address) (created : Instant) : Content where
  author := address.author
  permlink := address.permlink
  created := created
  lastUpdate := created
  active := created

def inCategory (category : String) (c : Content) : Content :=
  { c with parentAuthor := "", parentPermlink := category }

def replyTo (parent : Address) (c : Content) : Content :=
  { c with parentAuthor := parent.author, parentPermlink := parent.permlink }

def createdAt (t : Instant) (c : Content) : Content :=
  { c with created := t, lastUpdate := t, active := t }

end Content

end TagCatalog
