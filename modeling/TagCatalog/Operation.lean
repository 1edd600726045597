import TagCatalog.Content

/-! Committed operations of the ledger, as far as the catalog tells them apart. -/

namespace TagCatalog

inductive Operation
  /-- Content was written or edited. -/
  | comment (content : Address) (parentAuthor parentPermlink : String)
  | vote (voter : String) (content : Address) (weight : Int16)
  | reward (content : Address) (payout : Nat)
  /-- A payout window moved or closed. -/
  | payoutUpdate (content : Address)
  | delete (content : Address)
  | transfer (sender recipient : String) (amount : Nat) (memo : String)
  | other
  deriving DecidableEq, Repr

def Operation.kind : Operation → String
  | .comment .. => "comment"
  | .vote .. => "vote"
  | .reward .. => "comment_reward"
  | .payoutUpdate _ => "comment_payout_update"
  | .delete _ => "delete_comment"
  | .transfer .. => "transfer"
  | .other => "other"

end TagCatalog
