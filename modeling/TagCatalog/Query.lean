import TagCatalog.Catalog.Basic
import TagCatalog.Ledger

/-! Queries by tag and language, and their answers: content in the order of a ranking. -/

namespace TagCatalog

/-- A selection asks for one of its names, if it has any, and a filter refuses each of its names. -/
structure Query where
  selectTags : Names := ∅
  filterTags : Names := ∅
  selectLanguages : Names := ∅
  filterLanguages : Names := ∅
  limit : Nat := 20

namespace Query

def maxLimit : Nat := 100

def normalizeNames (names : Names) : Names :=
  .ofList (names.toList.filterMap normalizeName?)

def prepare (q : Query) : Query where
  selectTags := normalizeNames q.selectTags
  filterTags := normalizeNames q.filterTags
  selectLanguages := normalizeNames q.selectLanguages
  filterLanguages := normalizeNames q.filterLanguages
  limit := q.limit

def overlap? (filtered selected : Names) : Option String :=
  filtered.toList.find? selected.contains

/-- Refuses a limit that is too high and names on both sides, tags before languages. -/
def validate (q : Query) : Except Fault Unit :=
  if maxLimit < q.limit then .error (.limitExceeded q.limit maxLimit)
  else match overlap? q.filterTags q.selectTags with
    | some name => .error (.overlap .tags name)
    | none =>
      match overlap? q.filterLanguages q.selectLanguages with
      | some name => .error (.overlap .languages name)
      | none => .ok ()

def selectsTags (q : Query) : Bool := !q.selectTags.isEmpty

def filtersTags (q : Query) : Bool := !q.filterTags.isEmpty

def selectsLanguages (q : Query) : Bool := !q.selectLanguages.isEmpty

def filtersLanguages (q : Query) : Bool := !q.filterLanguages.isEmpty

/-- One pass over the tags. A filtered one refuses content, whether a selected one was `found` before
it or not. -/
def admitsTags (q : Query) (found : Bool) : List String → Bool
  | [] => found
  | tag :: tags =>
    if q.filtersTags && q.filterTags.contains tag then false
    else admitsTags q (found || q.selectTags.contains tag) tags

def admits (q : Query) (c : Classification) : Bool :=
  if !q.selectsTags && !q.filtersTags && !q.selectsLanguages && !q.filtersLanguages then true
  else if q.selectsLanguages && !q.selectLanguages.contains c.language ||
      q.filtersLanguages && q.filterLanguages.contains c.language then false
  else q.admitsTags (!q.selectsTags) c.tags.toList

end Query

inductive SortOrder
  | hot
  | trending
  | created
  deriving DecidableEq, Repr

namespace SortOrder

def ofName? (s : String) : Option SortOrder :=
  match lowercase s with
  | "hot" => some .hot
  | "trending" => some .trending
  | "created" | "new" => some .created
  | _ => none

/-- Greater keys come first, and times count in whole seconds. -/
def key (order : SortOrder) (e : Entry) : Int :=
  match order with
  | .hot => e.hot.rank
  | .trending => e.trending.rank
  | .created => e.created.seconds

def precedes (order : SortOrder) (a b : Entry) : Bool :=
  order.key b < order.key a || (order.key a = order.key b && a.content ≤ b.content)

end SortOrder

namespace Query

def topics (q : Query) (c : Catalog) : List Topic :=
  if q.selectsTags then q.selectTags.toList.map .tag
  else if q.selectsLanguages then q.selectLanguages.toList.map .language
  else (c.totals.topicRows.map (·.topic)).filter (·.kind = .tag)

def candidates (q : Query) (c : Catalog) (order : SortOrder) : List Entry :=
  ((q.topics c).flatMap c.table.hot).mergeSort order.precedes

/-- The content of candidates in turn, each once, as long as `room` is left. -/
def pick (admits : Nat → Bool) : (room : Nat) → (seen : List Nat) → List Entry → List Nat
  | 0, _, _ => []
  | _, _, [] => []
  | room + 1, seen, e :: es =>
    if seen.contains e.content then pick admits (room + 1) seen es
    else if admits e.content then e.content :: pick admits room (e.content :: seen) es
    else pick admits (room + 1) (e.content :: seen) es

/-- Content has to be there still and to match by what its metadata says now. -/
def admitsContent (q : Query) (s : Settings) (source : ContentSource) (id : Nat) : Bool :=
  (source.byId? id).any fun content => q.admits (source.classify s content)

def run (q : Query) (s : Settings) (source : ContentSource) (c : Catalog) (order : SortOrder) :
    Except Fault (List Nat) := do
  let q := q.prepare
  q.validate
  return pick (q.admitsContent s source) q.limit [] (q.candidates c order)

end Query

end TagCatalog
