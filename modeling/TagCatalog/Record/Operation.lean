import TagCatalog.Json.Record
import TagCatalog.Operation

/-! Operations in JSON: an object whose `type` names the kind, or an array that starts with the kind.
Kinds the catalog does not know are read as `other`, whatever else the object holds. -/

namespace TagCatalog.Operation

open Json

abbrev Members := List (String × Json)

namespace Members

def distinct (names : List String) (ms : Members) : Bool :=
  names.all fun name => (ms.filter (·.1 = name)).length ≤ 1

def required? (ms : Members) (name : String) (read : Json → Option α) : Option α :=
  (member? name ms).bind read

def optional? (ms : Members) (name : String) (default : α) (read : Json → Option α) : Option α :=
  match member? name ms with
  | none => some default
  | some j => read j

def address? (ms : Members) : Option Address :=
  return ⟨← required? ms "author" text?, ← required? ms "permlink" text?⟩

end Members

/-- The member names of each kind, in the order in which an array gives their values. -/
def memberNames : String → List String
  | "comment" => ["author", "permlink", "parent_author", "parent_permlink"]
  | "vote" => ["voter", "author", "permlink", "weight"]
  | "comment_reward" => ["author", "permlink", "payout"]
  | "comment_payout_update" | "delete_comment" => ["author", "permlink"]
  | "transfer" => ["from", "to", "amount", "memo"]
  | _ => []

def ofMembers? (ms : Members) : Option Operation := do
  let kind ← ms.required? "type" text?
  if ms.distinct ("type" :: memberNames kind) then
    match kind with
    | "comment" =>
      return .comment (← ms.address?) (← ms.optional? "parent_author" "" text?)
        (← ms.optional? "parent_permlink" "" text?)
    | "vote" =>
      let weight ← ms.optional? "weight" 0 (intBetween? (-2 ^ 15) (2 ^ 15 - 1))
      return .vote (← ms.required? "voter" text?) (← ms.address?) (.ofInt weight)
    | "comment_reward" =>
      return .reward (← ms.address?) (← ms.required? "payout" (natBelow? (2 ^ 64)))
    | "comment_payout_update" => return .payoutUpdate (← ms.address?)
    | "delete_comment" => return .delete (← ms.address?)
    | "transfer" =>
      return .transfer (← ms.required? "from" text?) (← ms.required? "to" text?)
        (← ms.required? "amount" (natBelow? (2 ^ 64))) (← ms.optional? "memo" "" text?)
    | _ => return .other
  else none

/-- An array has no value beyond the last of the members, and so none for a kind that is not known. -/
def ofJson? : Json → Option Operation
  | .obj ms => ofMembers? ms
  | .arr (.str kind :: values) =>
    if values.length ≤ (memberNames kind).length then
      ofMembers? (("type", .str kind) :: (memberNames kind).zip values)
    else none
  | _ => none

end TagCatalog.Operation
