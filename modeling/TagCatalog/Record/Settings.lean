import TagCatalog.Record.Field
import TagCatalog.Settings

/-! Settings in JSON. Every setting may be missing, but a score has to name both its tunables. -/

namespace TagCatalog

open Json

def ScoreParams.ofDraft? (d : Draft) : Option ScoreParams := do
  let fs ← d.fields? ["rshares_scale", "decay_seconds"]
  return ⟨← fs.required? "rshares_scale" Draft.int64?, ← fs.required? "decay_seconds" Draft.int64?⟩

namespace Settings

def fieldNames : List String :=
  ["max_reply_depth", "max_tags", "include_category", "hot", "trending"]

def ofDraft? (d : Draft) : Option Settings := do
  let fs ← d.fields? fieldNames
  return {
    maxReplyDepth := ← fs.optional? "max_reply_depth" 255 (Draft.word? 64)
    maxTags := ← fs.optional? "max_tags" 5 (Draft.word? 64)
    includeCategory := ← fs.optional? "include_category" true Draft.flag?
    hot := ← fs.optional? "hot" .hot ScoreParams.ofDraft?
    trending := ← fs.optional? "trending" .trending ScoreParams.ofDraft? }

end Settings

end TagCatalog
