import TagCatalog.Catalog.Basic
import TagCatalog.Ledger
import TagCatalog.Operation

/-! Keeping the catalog in step with the ledger: content is filed under the topics its metadata
declares, refreshed up the reply chain, and withdrawn. -/

namespace TagCatalog

/-- What one call of upkeep did to entries, and the content it went through, replies before what
they reply to. -/
structure Report where
  created : Nat := 0
  refreshed : Nat := 0
  removed : Nat := 0
  visited : List Nat := []
  deriving DecidableEq, Repr

namespace Report

def merge (a b : Report) : Report :=
  ⟨a.created + b.created, a.refreshed + b.refreshed, a.removed + b.removed,
    a.visited ++ b.visited⟩

def isNoop (r : Report) : Bool :=
  r.created = 0 && r.refreshed = 0 && r.removed = 0 && r.visited.isEmpty

end Report

namespace Catalog

def requireEntry (id : Nat) : Update Catalog Entry := do
  Update.require (.entryMissing id) ((← get).table.get? id)

def file (e : Entry) : Update Catalog Unit := do
  let e ← requireEntry (← onTable (EntryTable.insert e))
  onTotals (Totals.add e)
  onTotals (Totals.addPost e.author e.topic)
  if e.topic.kind = .language then
    onTotals (modify (·.registerLanguage e.topic.name))

def withdrawEntry (id : Nat) : Update Catalog Unit := do
  let e ← requireEntry id
  -- A missing row is told before the first write.
  let _ ← Update.require (.authorTotalsMissing e.author e.topic)
    ((← get).totals.author? e.author e.topic)
  let _ ← onTotals (Totals.remove e)
  onTotals (Totals.removePost e.author e.topic)
  let _ ← onTable (EntryTable.remove id)

variable (s : Settings) (source : ContentSource)

def refreshEntry (content : Content) (id : Nat) : Update Catalog Unit := do
  let old ← requireEntry id
  let new := old.refreshed s content
  onTotals (Totals.replace old new)
  onTable (EntryTable.replace new)

def requireParent (content : Content) : Update Catalog (Option Content) :=
  match content.parent? with
  | none => pure none
  | some a => return some (← source.require a)

def stays (cl : Classification) (e : Entry) : Bool :=
  match e.topic.kind with
  | .tag => cl.tags.contains e.topic.name
  | .language => e.topic.name = cl.language

def place (content : Content) (parent : Option Nat) (present : List Entry) (topic : Topic) :
    Update Catalog Unit :=
  match present.find? (·.topic = topic) with
  | some e => refreshEntry s content e.id
  | none => file (.ofContent s topic parent content)

/-- Bring the entries of open content in line with its metadata. -/
def classify (a : Address) : Update Catalog Report := do
  let content ← source.require a
  if content.isOpen then
    let cl := source.classify s content
    let parent ← requireParent source content
    let present ← ((← get).table.idsOfContent content.id).mapM requireEntry
    let kept := present.filter (stays cl)
    let stale := present.filter (!stays cl ·)
    let new := cl.topics.filter fun t => !kept.any (·.topic = t)
    cl.topics.forM (place s content (parent.map (·.id)) kept)
    stale.forM (withdrawEntry ·.id)
    return {
      created := new.length
      refreshed := cl.topics.length - new.length
      removed := stale.length
      visited := [content.id] }
  else Update.fail (.outsidePayoutWindow a)

def refreshContent (content : Content) : Update Catalog Nat := do
  let ids := (← get).table.idsOfContent content.id
  ids.forM (refreshEntry s content)
  return ids.length

/-- Refresh content and everything it replies to, up to the root or through `hops` replies. -/
def climb (hops : Nat) (content : Content) : Update Catalog Report := do
  let refreshed ← refreshContent s content
  let here : Report := { refreshed, visited := [content.id] }
  match ← requireParent source content with
  | none => return here
  | some parent =>
    match hops with
    | 0 => Update.fail (.depthExceeded s.maxReplyDepth)
    | hops + 1 => return here.merge (← climb hops parent)

/-- Content deeper than the limit is refused before anything is refreshed. -/
def refreshUp (content : Content) : Update Catalog Report :=
  if s.maxReplyDepth < content.depth then Update.fail (.depthExceeded s.maxReplyDepth)
  else climb s source s.maxReplyDepth content

def refresh (a : Address) : Update Catalog Report := do
  refreshUp s source (← source.require a)

def withdraw (a : Address) : Update Catalog Report := do
  let content ← source.require a
  let ids := (← get).table.idsOfContent content.id
  ids.forM withdrawEntry
  let gone : Report := { removed := ids.length }
  match ← requireParent source content with
  | none => return gone
  | some parent => return gone.merge (← refreshUp s source parent)

def sweep (author : String) : Update Catalog Report := do
  let orphans := ((← get).table.ofAuthor author).filter fun p => (source.byId? p.content).isNone
  orphans.forM (withdrawEntry ·.id)
  return { removed := orphans.length }

/-- Credit a payout to the topic and the author of one entry, where they have rows. -/
def credit (payout id : Nat) : Update Catalog Unit := do
  let e ← requireEntry id
  let _ ← onTotals (Totals.addPayout e.topic payout)
  let _ ← onTotals (Totals.addRewards e.author e.topic payout)

def reward (a : Address) (payout : Nat) : Update Catalog Report := do
  let report ← refresh s source a
  let content ← source.require a
  ((← get).table.idsOfContent content.id).forM (credit payout)
  return report

def apply : Operation → Update Catalog Report
  | .comment a _ _ => do
    if (← source.require a).isOpen then classify s source a else return {}
  | .vote _ a _ => refresh s source a
  | .reward a payout => reward s source a payout
  | .payoutUpdate a => do
    if (← source.require a).isOpen then refresh s source a else withdraw s source a
  | .delete a => sweep source a.author
  | .transfer .. | .other => return {}

def applyAll : List Operation → Update Catalog Report
  | [] => return {}
  | op :: ops => return (← apply s source op).merge (← applyAll ops)

end Catalog

end TagCatalog
