import TagCatalog.Content
import TagCatalog.Record.Field

/-! Content records in JSON. Author, permlink and time of creation are required. -/

namespace TagCatalog.Content

open Json

def fieldNames : List String :=
  ["id", "author", "permlink", "parent_author", "parent_permlink", "created", "last_update",
    "active", "cashout_time", "net_votes", "children", "net_rshares", "children_rshares2", "depth",
    "json_metadata"]

def ofDraft? (d : Draft) : Option Content := do
  let fs ← d.fields? fieldNames
  return {
    id := ← fs.optional? "id" 0 (Draft.word? 64)
    author := ← fs.required? "author" Draft.string?
    permlink := ← fs.required? "permlink" Draft.string?
    parentAuthor := ← fs.optional? "parent_author" "" Draft.string?
    parentPermlink := ← fs.optional? "parent_permlink" "" Draft.string?
    created := ← fs.required? "created" Draft.instant?
    lastUpdate := ← fs.optional? "last_update" .epoch Draft.instant?
    active := ← fs.optional? "active" .epoch Draft.instant?
    cashoutTime := ← fs.optional? "cashout_time" none Draft.instantOrNull?
    netVotes := ← fs.optional? "net_votes" 0 Draft.int32?
    children := ← fs.optional? "children" 0 (Draft.word? 32)
    netRshares := ← fs.optional? "net_rshares" 0 Draft.int64?
    childrenRshares2 := ← fs.optional? "children_rshares2" 0 (Draft.word? 128)
    depth := ← fs.optional? "depth" 0 (Draft.word? 16)
    jsonMetadata := ← fs.optional? "json_metadata" "" Draft.string? }

end TagCatalog.Content
