import Std.Data.ExtTreeMap
import TagCatalog.Classification
import TagCatalog.Update

/-! Content as others may read it, and a ledger that keeps content in memory. -/

namespace TagCatalog

/-- Read access to content. The two lookups need not agree. -/
structure ContentSource where
  at? : Address → Option Content
  byId? : Nat → Option Content

namespace ContentSource

variable (source : ContentSource)

def require (a : Address) : Update σ Content :=
  Update.require (.contentNotFound a) (source.at? a)

def parent? (c : Content) : Option Content :=
  c.parent?.bind source.at?

/-- The category of the root at most `hops` replies up, empty if none is met. -/
def categoryOf (hops : Nat) (c : Content) : String :=
  if c.isRoot then c.parentPermlink
  else match hops with
    | 0 => ""
    | hops + 1 =>
      match source.parent? c with
      | some parent => categoryOf hops parent
      | none => ""

def classify (s : Settings) (c : Content) : Classification :=
  .extract s (if s.includeCategory then source.categoryOf s.maxReplyDepth c else "") c.jsonMetadata

end ContentSource

/-- Content by id, with the ids by address. -/
structure Ledger where
  contents : Std.ExtTreeMap Nat Content := ∅
  ids : Std.ExtTreeMap Address Nat := ∅
  /-- Never given to content before. The ids of 64 bits are taken as never used up: no step past the
  last of them overflows. -/
  nextId : Nat := 1

namespace Ledger

def empty : Ledger := {}

def byId? (l : Ledger) (id : Nat) : Option Content := l.contents[id]?

def at? (l : Ledger) (a : Address) : Option Content := l.ids[a]?.bind l.byId?

def source (l : Ledger) : ContentSource := ⟨l.at?, l.byId?⟩

def toList (l : Ledger) : List Content := l.contents.values

def size (l : Ledger) : Nat := l.contents.size

def put (id : Nat) (c : Content) (l : Ledger) : Ledger :=
  { l with contents := l.contents.insert id c }

def idOf (a : Address) : Update Ledger Nat := do
  Update.require (.contentNotFound a) (← get).ids[a]?

def addReply (parent : Nat) : Update Ledger Nat := do
  match (← get).byId? parent with
  | none => return 0
  | some p =>
    let children ← Update.sum 32 p.children 1
    modify (·.put parent { p with children })
    Update.sum 16 p.depth 1

def insertNew (c : Content) (depth : Nat) : Update Ledger Nat := do
  let id := (← get).nextId
  modify fun l =>
    { l.put id { c with id, children := 0, depth } with
      ids := l.ids.insert c.address id
      nextId := id + 1 }
  return id

/-- Content of a known address replaces what was there but for its id, its reply count and its
depth. Other content is new; it has to be a root or a reply to known content. -/
def upsert (c : Content) : Update Ledger Nat := do
  match (← get).ids[c.address]? with
  | some id =>
    modify fun l =>
      match l.byId? id with
      | some stored => l.put id { c with id, children := stored.children, depth := stored.depth }
      | none => l.put id { c with id }
    return id
  | none =>
    match c.parent? with
    | none => insertNew c 0
    | some parent =>
      let depth ← addReply (← idOf parent)
      insertNew c depth

def dropReply (l : Ledger) (a : Address) : Ledger :=
  match l.ids[a]? with
  | none => l
  | some id =>
    match l.byId? id with
    | none => l
    | some p => l.put id { p with children := p.children - 1 }

def remove (a : Address) : Update Ledger Content := do
  let id ← idOf a
  modify fun l => { l with ids := l.ids.erase a }
  let c ← Update.require (.contentIdNotFound id) ((← get).byId? id)
  modify fun l => { l with contents := l.contents.erase id }
  match c.parent? with
  | none => return c
  | some parent =>
    modify (·.dropReply parent)
    return c

def locate (a : Address) : Update Ledger (Nat × Content) := do
  let id ← idOf a
  return (id, ← Update.require (.contentIdNotFound id) ((← get).byId? id))

def change (a : Address) (f : Content → Content) : Update Ledger Unit := do
  let (id, c) ← locate a
  modify (·.put id (f c))

/-- A vote adds to the weight first and then to the count. -/
def applyVote (a : Address) (rshares : Int64) (votes : Int32) : Update Ledger Unit := do
  let (id, c) ← locate a
  let weight ← Update.fits 64 (c.netRshares.toInt + rshares.toInt)
  let c := { c with netRshares := .ofInt weight }
  modify (·.put id c)
  let count ← Update.fits 32 (c.netVotes.toInt + votes.toInt)
  modify (·.put id { c with netVotes := .ofInt count })

def setCashout (a : Address) (cashout : Option Instant) : Update Ledger Unit :=
  change a fun c => { c with cashoutTime := cashout }

def closePayout (a : Address) : Update Ledger Unit := setCashout a none

end Ledger

end TagCatalog
