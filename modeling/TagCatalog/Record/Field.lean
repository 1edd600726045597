import TagCatalog.Instant.Text
import TagCatalog.Json.Record
import TagCatalog.Score

/-! The kinds of field that records have in JSON, with the range of each. -/

namespace TagCatalog.Json.Draft

def string? : Draft → Option String := as? text?

def word? (bits : Nat) : Draft → Option Nat := as? (natBelow? (2 ^ bits))

def int32? : Draft → Option Int32 :=
  as? fun j => (intBetween? (-2 ^ 31) (2 ^ 31 - 1) j).map Int32.ofInt

def int64? : Draft → Option Int64 :=
  as? fun j => (intBetween? (-2 ^ 63) (2 ^ 63 - 1) j).map Int64.ofInt

def flag? : Draft → Option Bool := as? bool?

def instant? (d : Draft) : Option Instant := d.string?.bind Instant.read?

/-- An instant, or null for none. -/
def instantOrNull? : Draft → Option (Option Instant)
  | .null => some none
  | d => d.instant?.map some

def names? : Draft → Option (List String)
  | .arr items => items.mapM string?
  | _ => none

end TagCatalog.Json.Draft
