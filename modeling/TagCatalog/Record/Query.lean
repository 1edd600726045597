import TagCatalog.Query
import TagCatalog.Record.Field

/-! Queries in JSON; every field may be missing. -/

namespace TagCatalog.Query

open Json

def fieldNames : List String :=
  ["select_tags", "filter_tags", "select_languages", "filter_languages", "limit"]

def ofDraft? (d : Draft) : Option Query := do
  let fs ← d.fields? fieldNames
  return {
    selectTags := .ofList (← fs.optional? "select_tags" [] Draft.names?)
    filterTags := .ofList (← fs.optional? "filter_tags" [] Draft.names?)
    selectLanguages := .ofList (← fs.optional? "select_languages" [] Draft.names?)
    filterLanguages := .ofList (← fs.optional? "filter_languages" [] Draft.names?)
    limit := ← fs.optional? "limit" 20 (Draft.word? 32) }

end TagCatalog.Query
